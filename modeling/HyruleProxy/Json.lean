import Mathlib.Data.List.Basic
import Mathlib.Tactic

namespace HyruleProxy
set_option autoImplicit true

/-- A JSON value. A number is kept as its text, and an object as the list of its members. -/
inductive Json where
  | null
  | bool (b : Bool)
  | num (text : List Char)
  | str (s : List Char)
  | arr (vs : List Json)
  | obj (ms : List (List Char × Json))

namespace Json

/-- The escapes with a letter of their own. -/
def shortEscapes : List (Char × Char) :=
  [('"', '"'), ('\\', '\\'), ('b', '\x08'), ('f', '\x0c'), ('n', '\n'), ('r', '\r'), ('t', '\t')]

section Read

def isSpace (c : Char) : Bool := c = ' ' || c = '\t' || c = '\r' || c = '\n'

def skipSpace (cs : List Char) : List Char := cs.dropWhile isSpace

def hexValue (c : Char) : Option Nat :=
  if '0' ≤ c ∧ c ≤ '9' then some (c.toNat - 48)
  else if 'a' ≤ c ∧ c ≤ 'f' then some (c.toNat - 87)
  else if 'A' ≤ c ∧ c ≤ 'F' then some (c.toNat - 55)
  else none

/-- The four digits of a `\u` escape. -/
def readHex : List Char → Option (Nat × List Char)
  | a :: b :: c :: d :: cs =>
    (hexValue a).bind fun a => (hexValue b).bind fun b => (hexValue c).bind fun c =>
      (hexValue d).map fun d => (((a * 16 + b) * 16 + c) * 16 + d, cs)
  | _ => none

/-- A part of a string literal: a rune, or the code unit of a `\u` escape. -/
inductive Piece where
  | rune (c : Char)
  | unit (n : Nat)

def unescape (e : Char) : Option Char :=
  if e = '/' then some '/' else (shortEscapes.find? fun p => p.1 = e).map Prod.snd

/-- The next part of a string literal, or its end. -/
def readPiece : List Char → Option (Option Piece × List Char)
  | [] => none
  | c :: cs =>
    if c = '"' then some (none, cs)
    else if c = '\\' then
      match cs with
      | [] => none
      | e :: cs =>
        if e = 'u' then (readHex cs).map fun r => (some (.unit r.1), r.2)
        else (unescape e).map fun c => (some (.rune c), cs)
    else if c.toNat < 32 then none
    else some (some (.rune c), cs)

def readPieces : Nat → List Char → Option (List Piece × List Char)
  | 0, _ => none
  | n + 1, cs =>
    match readPiece cs with
    | none => none
    | some (none, cs) => some ([], cs)
    | some (some p, cs) => (readPieces n cs).map fun r => (p :: r.1, r.2)

def isHigh (n : Nat) : Bool := 0xd800 ≤ n && n < 0xdc00

def isLow (n : Nat) : Bool := 0xdc00 ≤ n && n < 0xe000

/-- The rune of a code unit alone; a surrogate is replaced. -/
def unitRune (n : Nat) : Char := if isHigh n || isLow n then '\ufffd' else Char.ofNat n

/-- The runes of a string literal: two escapes that form a surrogate pair are one rune. -/
def joinPieces : List Piece → List Char
  | [] => []
  | .unit n :: .unit m :: ps =>
    if isHigh n && isLow m then
      Char.ofNat (0x10000 + (n - 0xd800) * 0x400 + (m - 0xdc00)) :: joinPieces ps
    else unitRune n :: joinPieces (.unit m :: ps)
  | .unit n :: ps => unitRune n :: joinPieces ps
  | .rune c :: ps => c :: joinPieces ps

/-- The rest of a string literal after its opening quote. -/
def readString (cs : List Char) : Option (List Char × List Char) :=
  (readPieces cs.length cs).map fun r => (joinPieces r.1, r.2)

/-- The states of the scanner inside a number. -/
inductive NumState where
  | neg
  | zero
  | digits
  | dot
  | fraction
  | exp
  | expSign
  | expDigits

namespace NumState

def afterInt (c : Char) : Option NumState :=
  if c = '.' then some .dot else if c = 'e' ∨ c = 'E' then some .exp else none

def next : NumState → Char → Option NumState
  | .neg, c => if c = '0' then some .zero else if c.isDigit then some .digits else none
  | .zero, c => afterInt c
  | .digits, c => if c.isDigit then some .digits else afterInt c
  | .dot, c => if c.isDigit then some .fraction else none
  | .fraction, c =>
    if c.isDigit then some .fraction else if c = 'e' ∨ c = 'E' then some .exp else none
  | .exp, c =>
    if c = '+' ∨ c = '-' then some .expSign else if c.isDigit then some .expDigits else none
  | .expSign, c => if c.isDigit then some .expDigits else none
  | .expDigits, c => if c.isDigit then some .expDigits else none

/-- Whether a number may end here. -/
def final : NumState → Bool
  | .zero | .digits | .fraction | .expDigits => true
  | .neg | .dot | .exp | .expSign => false

def start (c : Char) : Option NumState := if c = '-' then some .neg else neg.next c

end NumState

def readNumber : NumState → List Char → Option (List Char × List Char)
  | st, [] => if st.final then some ([], []) else none
  | st, c :: cs =>
    match st.next c with
    | some st' => (readNumber st' cs).map fun r => (c :: r.1, r.2)
    | none => if st.final then some ([], c :: cs) else none

def literals : List (List Char × Json) :=
  [(['n', 'u', 'l', 'l'], .null), (['t', 'r', 'u', 'e'], .bool true),
    (['f', 'a', 'l', 's', 'e'], .bool false)]

def readLiteral (cs : List Char) : Option (Json × List Char) :=
  literals.findSome? fun p => if p.1.isPrefixOf cs then some (p.2, cs.drop p.1.length) else none

/-- The items of an array or an object after the first one has begun. -/
def readItems (item : List Char → Option (α × List Char)) (close : Char) :
    Nat → List Char → Option (List α × List Char)
  | 0, _ => none
  | n + 1, cs =>
    match item cs with
    | none => none
    | some (x, cs) =>
      match skipSpace cs with
      | [] => none
      | c :: cs =>
        if c = ',' then (readItems item close n cs).map fun r => (x :: r.1, r.2)
        else if c = close then some ([x], cs)
        else none

/-- The rest of an array or an object after its opening bracket. -/
def readSeq (item : List Char → Option (α × List Char)) (close : Char) (cs : List Char) :
    Option (List α × List Char) :=
  match skipSpace cs with
  | [] => none
  | c :: cs => if c = close then some ([], cs) else readItems item close (c :: cs).length (c :: cs)

def readKey (cs : List Char) : Option (List Char × List Char) :=
  match skipSpace cs with
  | [] => none
  | c :: cs => if c = '"' then readString cs else none

def readMember (value : List Char → Option (Json × List Char)) (cs : List Char) :
    Option ((List Char × Json) × List Char) :=
  match readKey cs with
  | none => none
  | some (k, cs) =>
    match skipSpace cs with
    | [] => none
    | c :: cs => if c = ':' then (value cs).map fun r => ((k, r.1), r.2) else none

/-- A value, if those inside of it are read by `value`; without it no bracket may open. -/
def beginValue (value : Option (List Char → Option (Json × List Char))) (cs : List Char) :
    Option (Json × List Char) :=
  match skipSpace cs with
  | [] => none
  | c :: cs =>
    if c = '"' then (readString cs).map fun r => (.str r.1, r.2)
    else if c = '{' then
      value.bind fun value => (readSeq (readMember value) '}' cs).map fun r => (.obj r.1, r.2)
    else if c = '[' then
      value.bind fun value => (readSeq value ']' cs).map fun r => (.arr r.1, r.2)
    else
      match NumState.start c with
      | some st => (readNumber st cs).map fun r => (.num (c :: r.1), r.2)
      | none => readLiteral (c :: cs)

/-- The first value of a text, nested at most `depth` deep, and the text after it. -/
def parseValue : Nat → List Char → Option (Json × List Char)
  | 0 => beginValue none
  | depth + 1 => beginValue (some (parseValue depth))

end Read

section Print

def shortEscape (c : Char) : Option Char := (shortEscapes.find? fun p => p.2 = c).map Prod.fst

/-- The runes that are written as `\u` escapes when they have no letter. -/
def isCoded (c : Char) : Bool :=
  c.toNat < 32 || c = '<' || c = '>' || c = '&' || c = '\u2028' || c = '\u2029'

def hexText (n : Nat) : List Char :=
  [(n / 4096 % 16).digitChar, (n / 256 % 16).digitChar, (n / 16 % 16).digitChar,
    (n % 16).digitChar]

/-- A rune in a string literal. -/
def escape (c : Char) : List Char :=
  match shortEscape c with
  | some e => ['\\', e]
  | none => if isCoded c then '\\' :: 'u' :: hexText c.toNat else [c]

def printString (s : List Char) : List Char := '"' :: (s.flatMap escape ++ ['"'])

def join (sep : α) : List (List α) → List α
  | [] => []
  | [t] => t
  | t :: u :: ts => t ++ sep :: join sep (u :: ts)

mutual

/-- The text of a value, without blanks. -/
def print : Json → List Char
  | .null => ['n', 'u', 'l', 'l']
  | .bool true => ['t', 'r', 'u', 'e']
  | .bool false => ['f', 'a', 'l', 's', 'e']
  | .num text => text
  | .str s => printString s
  | .arr vs => '[' :: (join ',' (printItems vs) ++ [']'])
  | .obj ms => '{' :: (join ',' (printMembers ms) ++ ['}'])

def printItems : List Json → List (List Char)
  | [] => []
  | v :: vs => v.print :: printItems vs

def printMembers : List (List Char × Json) → List (List Char)
  | [] => []
  | (k, v) :: ms => (printString k ++ ':' :: v.print) :: printMembers ms

end

end Print

section Strings

theorem hexValue_digitChar (h : d < 16) : hexValue d.digitChar = some d := by
  interval_cases d <;> rfl

theorem readHex_hexText (h : n < 65536) (cs : List Char) :
    readHex (hexText n ++ cs) = some (n, cs) := by
  have hmod : ∀ m : Nat, m % 16 < 16 := fun m => Nat.mod_lt m (by decide)
  simp only [hexText, List.cons_append, List.nil_append, readHex, hexValue_digitChar (hmod _),
    Option.bind_some, Option.map_some, Option.some.injEq, Prod.mk.injEq, and_true]
  omega

theorem shortEscape_eq_some (h : shortEscape c = some e) : e ≠ 'u' ∧ unescape e = some c := by
  obtain ⟨p, hp, rfl⟩ := Option.map_eq_some_iff.1 h
  have hc : p.2 = c := by simpa using List.find?_some hp
  subst hc
  have hall : ∀ p ∈ shortEscapes, p.1 ≠ 'u' ∧ unescape p.1 = some p.2 := by decide
  exact hall p (List.mem_of_find?_eq_some hp)

theorem toNat_lt_of_isCoded (h : isCoded c = true) : c.toNat < 0xd800 := by
  simp only [isCoded, Bool.or_eq_true, decide_eq_true_eq] at h
  rcases h with ((((h | rfl) | rfl) | rfl) | rfl) | rfl
  · omega
  all_goals decide

/-- The part of a literal as which the escape of a rune is read. -/
def pieceOf (c : Char) : Piece :=
  if shortEscape c = none ∧ isCoded c = true then .unit c.toNat else .rune c

theorem readPiece_escape (c : Char) (cs : List Char) :
    readPiece (escape c ++ cs) = some (some (pieceOf c), cs) := by
  rw [escape, pieceOf]
  cases he : shortEscape c with
  | some e =>
    obtain ⟨hu, hc⟩ := shortEscape_eq_some he
    simp [readPiece, hu, hc]
  | none =>
    by_cases hc : isCoded c = true
    · have hlt := toNat_lt_of_isCoded hc
      simp [readPiece, hc, readHex_hexText (show c.toNat < 65536 by omega)]
    · -- a rune with neither kind of escape stands for itself
      have hq : c ≠ '"' := by
        rintro rfl
        exact absurd he (by decide)
      have hb : c ≠ '\\' := by
        rintro rfl
        exact absurd he (by decide)
      have hn : ¬ c.toNat < 32 := by
        intro hlt
        exact hc (by simp [isCoded, hlt])
      simp [readPiece, hc, hq, hb, hn]

theorem length_escape_pos (c : Char) : 0 < (escape c).length := by
  rw [escape]
  split
  · exact Nat.succ_pos _
  · split
    · exact Nat.succ_pos _
    · exact Nat.succ_pos _

theorem length_le_flatMap_escape (s : List Char) : s.length ≤ (s.flatMap escape).length := by
  induction s with
  | nil => exact le_rfl
  | cons c s ih =>
    have hc := length_escape_pos c
    rw [List.flatMap_cons, List.length_append, List.length_cons]
    omega

theorem readPieces_escape (s rest : List Char) (h : s.length < n) :
    readPieces n (s.flatMap escape ++ '"' :: rest) = some (s.map pieceOf, rest) := by
  induction s generalizing n with
  | nil =>
    obtain ⟨n, rfl⟩ := Nat.exists_eq_succ_of_ne_zero (Nat.ne_of_gt h)
    rfl
  | cons c s ih =>
    obtain ⟨n, rfl⟩ := Nat.exists_eq_succ_of_ne_zero (Nat.ne_of_gt (Nat.zero_lt_of_lt h))
    rw [List.flatMap_cons, List.append_assoc, readPieces, readPiece_escape]
    simp only [ih (Nat.lt_of_succ_lt_succ h), Option.map_some, List.map_cons]

theorem joinPieces_unit (h : n < 0xd800) (ps : List Piece) :
    joinPieces (.unit n :: ps) = Char.ofNat n :: joinPieces ps := by
  have hh : isHigh n = false := by
    rw [isHigh, Bool.and_eq_false_iff, decide_eq_false_iff_not]
    omega
  have hl : isLow n = false := by
    rw [isLow, Bool.and_eq_false_iff, decide_eq_false_iff_not]
    omega
  have hr : unitRune n = Char.ofNat n := by simp [unitRune, hh, hl]
  cases ps with
  | nil => simp [joinPieces, hr]
  | cons p ps =>
    cases p with
    | rune c => simp [joinPieces, hr]
    | unit m => simp [joinPieces, hh, hr]

theorem joinPieces_pieceOf (s : List Char) : joinPieces (s.map pieceOf) = s := by
  induction s with
  | nil => rfl
  | cons c s ih =>
    rw [List.map_cons, pieceOf]
    split
    · rename_i hc
      rw [joinPieces_unit (toNat_lt_of_isCoded hc.2), ih, Char.ofNat_toNat]
    · rw [joinPieces, ih]

theorem readString_escape (s rest : List Char) :
    readString (s.flatMap escape ++ '"' :: rest) = some (s, rest) := by
  have hlen := length_le_flatMap_escape s
  have hlt : s.length < (s.flatMap escape ++ '"' :: rest).length := by
    rw [List.length_append, List.length_cons]
    omega
  rw [readString, readPieces_escape s rest hlt, Option.map_some, joinPieces_pieceOf]

end Strings

section Numbers

/-- The text of a number: the scanner takes all of it. -/
def IsNumber (text : List Char) : Prop :=
  ∃ c cs st, text = c :: cs ∧ NumState.start c = some st ∧ readNumber st cs = some (cs, [])

/-- What follows a value inside an array or an object, or the end. -/
def Follows (rest : List Char) : Prop := ∀ c ∈ rest.head?, c = ',' ∨ c = ']' ∨ c = '}'

theorem NumState.next_follows (h : c = ',' ∨ c = ']' ∨ c = '}') (st : NumState) :
    st.next c = none := by
  rcases h with rfl | rfl | rfl <;> cases st <;> rfl

theorem readNumber_append (h : readNumber st cs = some (cs, [])) (hr : Follows rest) :
    readNumber st (cs ++ rest) = some (cs, rest) := by
  induction cs generalizing st with
  | nil =>
    have hf : st.final = true := by
      by_contra hf
      rw [readNumber, if_neg hf] at h
      cases h
    cases rest with
    | nil => exact h
    | cons c rest =>
      rw [List.nil_append, readNumber, NumState.next_follows (hr c rfl)]
      exact if_pos hf
  | cons c cs ih =>
    rw [readNumber] at h
    rw [List.cons_append, readNumber]
    cases hn : st.next c with
    | none =>
      rw [hn] at h
      simp at h
    | some st' =>
      rw [hn] at h
      obtain ⟨r, hr, he⟩ := Option.map_eq_some_iff.1 h
      obtain ⟨hcs, hnil⟩ := Prod.mk.inj he
      have hr' : r = (cs, []) := Prod.ext (List.cons.inj hcs).2 hnil
      simp only [ih (hr'.symm ▸ hr), Option.map_some]

theorem head_toDigits (hn : 0 < n) : ∀ c ∈ (Nat.toDigits 10 n).head?, c ≠ '0' := by
  induction n using Nat.strong_induction_on with
  | _ n ih =>
    by_cases hlt : n < 10
    · rw [Nat.toDigits_of_lt_base hlt]
      rintro c ⟨rfl⟩
      interval_cases n <;> decide
    · rw [Nat.toDigits_of_base_le (by decide) (not_lt.1 hlt),
        List.head?_append_of_ne_nil _ Nat.toDigits_ne_nil]
      exact ih (n / 10) (by omega) (by omega)

theorem readNumber_digits (h : ∀ c ∈ ds, c.isDigit = true) :
    readNumber .digits ds = some (ds, []) := by
  induction ds with
  | nil => rfl
  | cons c ds ih =>
    have hc : NumState.digits.next c = some .digits := if_pos (h c List.mem_cons_self)
    rw [readNumber, hc]
    simp only [ih fun d hd => h d (List.mem_cons_of_mem c hd), Option.map_some]

theorem readNumber_toDigits (n : Nat) : ∃ c cs st, Nat.toDigits 10 n = c :: cs ∧ c ≠ '-' ∧
    NumState.neg.next c = some st ∧ readNumber st cs = some (cs, []) := by
  obtain rfl | hn := Nat.eq_zero_or_pos n
  · exact ⟨'0', [], .zero, Nat.toDigits_zero 10, by decide, rfl, rfl⟩
  · obtain ⟨c, cs, hcs⟩ := List.exists_cons_of_ne_nil (Nat.toDigits_ne_nil (n := n) (b := 10))
    have hdigit : ∀ d ∈ c :: cs, d.isDigit = true := by
      intro d hd
      exact Nat.isDigit_of_mem_toDigits (by decide) (by decide) (hcs ▸ hd)
    have hc := hdigit c List.mem_cons_self
    have hzero : c ≠ '0' := head_toDigits hn c (by rw [hcs]; rfl)
    refine ⟨c, cs, .digits, hcs, ?_, ?_, ?_⟩
    · rintro rfl
      exact absurd hc (by decide)
    · rw [NumState.next, if_neg hzero, if_pos hc]
    · exact readNumber_digits fun d hd => hdigit d (List.mem_cons_of_mem c hd)

theorem toList_toString_ofNat (n : Nat) : (toString (n : Int)).toList = Nat.toDigits 10 n :=
  Nat.toList_repr

theorem toList_toString_negSucc (n : Nat) :
    (toString (Int.negSucc n)).toList = '-' :: Nat.toDigits 10 (n + 1) := by
  have h : toString (Int.negSucc n) = "-" ++ (n + 1).repr := rfl
  rw [h, String.toList_append, Nat.toList_repr]
  rfl

theorem isNumber_toString (n : Int) : IsNumber (toString n).toList := by
  cases n with
  | ofNat n =>
    obtain ⟨c, cs, st, hcs, hne, hst, hread⟩ := readNumber_toDigits n
    refine ⟨c, cs, st, (toList_toString_ofNat n).trans hcs, ?_, hread⟩
    rw [NumState.start, if_neg hne, hst]
  | negSucc n =>
    obtain ⟨c, cs, st, hcs, _, hst, hread⟩ := readNumber_toDigits (n + 1)
    refine ⟨'-', c :: cs, .neg, by rw [toList_toString_negSucc, hcs], rfl, ?_⟩
    rw [readNumber, hst]
    simp only [hread, Option.map_some]

end Numbers

/-- A value whose numbers are texts of numbers, nested at most `depth` deep. -/
inductive WellFormed : Nat → Json → Prop where
  | null : WellFormed depth .null
  | bool : WellFormed depth (.bool b)
  | num (h : IsNumber text) : WellFormed depth (.num text)
  | str : WellFormed depth (.str s)
  | arr (h : ∀ v ∈ vs, WellFormed depth v) : WellFormed (depth + 1) (.arr vs)
  | obj (h : ∀ m ∈ ms, WellFormed depth m.2) : WellFormed (depth + 1) (.obj ms)

theorem printItems_eq (vs : List Json) : printItems vs = vs.map print := by
  induction vs with
  | nil => rw [printItems, List.map_nil]
  | cons v vs ih => rw [printItems, ih, List.map_cons]

def printMember (m : List Char × Json) : List Char := printString m.1 ++ ':' :: m.2.print

theorem printMembers_eq (ms : List (List Char × Json)) :
    printMembers ms = ms.map printMember := by
  induction ms with
  | nil => rw [printMembers, List.map_nil]
  | cons m ms ih => rw [printMembers, ih, List.map_cons, printMember]

/-- A rune with which a value or a member begins. -/
def Begins (c : Char) : Prop := isSpace c = false ∧ c ≠ ']' ∧ c ≠ '}'

instance (c : Char) : Decidable (Begins c) := inferInstanceAs (Decidable (_ ∧ _ ∧ _))

section Items

variable {item : List Char → Option (α × List Char)} {text : α → List Char} {close : Char}
  {xs : List α}

/-- The texts of items as their reader needs them. -/
structure Reads (item : List Char → Option (α × List Char)) (text : α → List Char)
    (xs : List α) : Prop where
  begins : ∀ x ∈ xs, ∃ c cs, text x = c :: cs ∧ Begins c
  read : ∀ x ∈ xs, ∀ rest, Follows rest → item (text x ++ rest) = some (x, rest)

theorem Reads.tail (h : Reads item text (x :: xs)) : Reads item text xs :=
  ⟨fun y hy => h.begins y (List.mem_cons_of_mem x hy),
    fun y hy => h.read y (List.mem_cons_of_mem x hy)⟩

theorem Reads.length_le (h : Reads item text xs) :
    xs.length ≤ (join ',' (xs.map text)).length := by
  induction xs with
  | nil => exact le_rfl
  | cons x xs ih =>
    have htail := ih h.tail
    obtain ⟨c, cs, hx, _⟩ := h.begins x List.mem_cons_self
    cases xs with
    | nil => simp [join, hx]
    | cons y ys =>
      simp only [List.map_cons, join, hx, List.length_append, List.length_cons] at htail ⊢
      omega

theorem skipSpace_cons (h : isSpace c = false) (cs : List Char) :
    skipSpace (c :: cs) = c :: cs := by
  rw [skipSpace, List.dropWhile_cons_of_neg (by rw [h]; decide)]

theorem Reads.readItems (h : Reads item text xs) (hc : close = ']' ∨ close = '}') (hne : xs ≠ [])
    (hn : xs.length ≤ n) (rest : List Char) :
    readItems item close n (join ',' (xs.map text) ++ close :: rest) = some (xs, rest) := by
  induction xs generalizing n with
  | nil => exact absurd rfl hne
  | cons x xs ih =>
    obtain ⟨n, rfl⟩ := Nat.exists_eq_succ_of_ne_zero (Nat.ne_of_gt (Nat.zero_lt_of_lt hn))
    have hread := h.read x List.mem_cons_self
    cases xs with
    | nil =>
      have hfollow : Follows (close :: rest) := by
        rintro c ⟨rfl⟩
        exact .inr hc
      have hspace : isSpace close = false ∧ close ≠ ',' := by
        rcases hc with rfl | rfl
        · decide
        · decide
      rw [List.map_cons, List.map_nil, join, Json.readItems, hread _ hfollow]
      simp [skipSpace_cons hspace.1, hspace.2]
    | cons y ys =>
      have hfollow : ∀ cs, Follows (',' :: cs) := by
        rintro cs c ⟨rfl⟩
        exact .inl rfl
      have hrest := ih h.tail (List.cons_ne_nil y ys) (Nat.le_of_succ_le_succ hn)
      rw [List.map_cons] at hrest
      rw [List.map_cons, List.map_cons, join, List.append_assoc, List.cons_append,
        Json.readItems, hread _ (hfollow _)]
      simp [skipSpace_cons (show isSpace ',' = false by decide), hrest]

theorem Reads.readSeq (h : Reads item text xs) (hc : close = ']' ∨ close = '}')
    (rest : List Char) :
    readSeq item close (join ',' (xs.map text) ++ close :: rest) = some (xs, rest) := by
  cases xs with
  | nil =>
    have hspace : isSpace close = false := by
      rcases hc with rfl | rfl
      · decide
      · decide
    simp [Json.readSeq, join, skipSpace_cons hspace]
  | cons x xs =>
    obtain ⟨c, cs, hx, hb⟩ := h.begins x List.mem_cons_self
    obtain ⟨t, ht⟩ : ∃ t, join ',' ((x :: xs).map text) = c :: t := by
      cases xs with
      | nil => exact ⟨cs, hx⟩
      | cons y ys => exact ⟨_, by rw [List.map_cons, List.map_cons, join, hx]; rfl⟩
    have hlen : (x :: xs).length ≤ (c :: (t ++ close :: rest)).length := by
      have := h.length_le
      rw [ht] at this
      rw [← List.cons_append, List.length_append]
      omega
    have hitems := h.readItems hc (List.cons_ne_nil x xs) hlen rest
    -- the first item is not taken for the end
    have hclose : c ≠ close := by
      rcases hc with rfl | rfl
      · exact hb.2.1
      · exact hb.2.2
    rw [ht, List.cons_append] at hitems ⊢
    rw [Json.readSeq, skipSpace_cons hb.1]
    simp only [if_neg hclose, hitems]

end Items

theorem NumState.begins_of_start (h : start c = some st) : Begins c := by
  refine ⟨?_, ?_, ?_⟩
  · by_contra hs
    simp only [isSpace, Bool.not_eq_false, Bool.or_eq_true, decide_eq_true_eq] at hs
    rcases hs with ((rfl | rfl) | rfl) | rfl
    all_goals cases h
  · rintro rfl
    cases h
  · rintro rfl
    cases h

theorem WellFormed.begins (h : WellFormed depth v) : ∃ c cs, v.print = c :: cs ∧ Begins c := by
  cases h with
  | null => exact ⟨_, _, by rw [print], by decide⟩
  | @bool _ b =>
    cases b with
    | true => exact ⟨_, _, by rw [print], by decide⟩
    | false => exact ⟨_, _, by rw [print], by decide⟩
  | num h =>
    obtain ⟨c, cs, st, rfl, hc, _⟩ := h
    exact ⟨c, cs, by rw [print], NumState.begins_of_start hc⟩
  | str => exact ⟨_, _, by rw [print, printString], by decide⟩
  | arr _ => exact ⟨_, _, by rw [print], by decide⟩
  | obj _ => exact ⟨_, _, by rw [print], by decide⟩

theorem parseValue_eq (depth : Nat) : ∃ value, parseValue depth = beginValue value := by
  cases depth with
  | zero => exact ⟨none, rfl⟩
  | succ depth => exact ⟨some (parseValue depth), rfl⟩

theorem readKey_print (k rest : List Char) : readKey (printString k ++ rest) = some (k, rest) := by
  rw [printString, List.cons_append, List.append_assoc, List.singleton_append, readKey,
    skipSpace_cons (by decide)]
  simp [readString_escape]

/-- The reader of values takes back the text of a value. -/
theorem WellFormed.parseValue_print (h : WellFormed depth v) (rest : List Char)
    (hr : Follows rest) : parseValue depth (v.print ++ rest) = some (v, rest) := by
  induction h generalizing rest with
  | @null depth =>
    obtain ⟨value, hv⟩ := parseValue_eq depth
    rw [hv, print]
    rfl
  | @bool depth b =>
    obtain ⟨value, hv⟩ := parseValue_eq depth
    rw [hv]
    cases b with
    | true =>
      rw [print]
      rfl
    | false =>
      rw [print]
      rfl
  | @num text depth h =>
    obtain ⟨value, hv⟩ := parseValue_eq depth
    obtain ⟨c, cs, st, rfl, hc, hcs⟩ := h
    have hne : c ≠ '"' ∧ c ≠ '{' ∧ c ≠ '[' := by
      refine ⟨?_, ?_, ?_⟩
      all_goals
        rintro rfl
        cases hc
    rw [hv, print, List.cons_append, beginValue, skipSpace_cons (NumState.begins_of_start hc).1]
    simp [hne, hc, readNumber_append hcs hr]
  | @str depth s =>
    obtain ⟨value, hv⟩ := parseValue_eq depth
    rw [hv, print, printString, List.cons_append, List.append_assoc, List.singleton_append,
      beginValue, skipSpace_cons (by decide)]
    simp [readString_escape]
  | @arr vs depth h ih =>
    have hreads : Reads (parseValue depth) print vs := ⟨fun v hv => (h v hv).begins, ih⟩
    rw [print, printItems_eq, List.cons_append, List.append_assoc, List.singleton_append,
      parseValue, beginValue, skipSpace_cons (by decide)]
    simp [hreads.readSeq]
  | @obj ms depth h ih =>
    have hreads : Reads (readMember (parseValue depth)) printMember ms := by
      constructor
      · intro m _
        exact ⟨_, _, by rw [printMember, printString, List.cons_append], by decide⟩
      · intro m hm rest hr
        rw [printMember, List.append_assoc, List.cons_append, readMember, readKey_print]
        simp [skipSpace_cons (show isSpace ':' = false by decide), ih m hm rest hr]
    rw [print, printMembers_eq, List.cons_append, List.append_assoc, List.singleton_append,
      parseValue, beginValue, skipSpace_cons (by decide)]
    simp [hreads.readSeq]

end Json

end HyruleProxy
