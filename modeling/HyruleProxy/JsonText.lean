import HyruleProxy.GoString
import HyruleProxy.Json

namespace HyruleProxy
set_option autoImplicit true

namespace Json

section Raw

variable {item : List Char → Option (α × List Char)}

/-- An item together with its own text. -/
def withText (item : List Char → Option (α × List Char)) (cs : List Char) :
    Option ((List Char × α) × List Char) :=
  (item cs).map fun r =>
    (((skipSpace cs).take ((skipSpace cs).length - r.2.length), r.1), r.2)

/-- A member of an object whose value is read by `item`. -/
def readEntry (item : List Char → Option (α × List Char)) (cs : List Char) :
    Option ((List Char × α) × List Char) :=
  match readKey cs with
  | none => none
  | some (k, cs) =>
    match skipSpace cs with
    | [] => none
    | c :: cs => if c = ':' then (item cs).map fun r => ((k, r.1), r.2) else none

theorem readItems_withText (close : Char) (n : Nat) (cs : List Char) :
    (readItems (withText item) close n cs).map (fun r => (r.1.map Prod.snd, r.2)) =
      readItems item close n cs := by
  induction n generalizing cs with
  | zero => rfl
  | succ n ih =>
    rw [readItems, readItems, withText]
    cases item cs with
    | none => rfl
    | some r =>
      obtain ⟨x, cs'⟩ := r
      simp only [Option.map_some]
      cases skipSpace cs' with
      | nil => rfl
      | cons c cs'' =>
        simp only
        split
        · rw [← ih, Option.map_map, Option.map_map]
          rfl
        · split <;> rfl

theorem readSeq_withText (close : Char) (cs : List Char) :
    (readSeq (withText item) close cs).map (fun r => (r.1.map Prod.snd, r.2)) =
      readSeq item close cs := by
  rw [readSeq, readSeq]
  cases skipSpace cs with
  | nil => rfl
  | cons c cs' =>
    simp only
    split
    · rfl
    · exact readItems_withText close _ _

end Raw

section Denotes

/-- A text that is read as the value, whatever may follow it. -/
structure Denotes (depth : Nat) (text : List Char) (v : Json) : Prop where
  begins : ∃ c cs, text = c :: cs ∧ Begins c
  read : ∀ rest, Follows rest → parseValue depth (text ++ rest) = some (v, rest)

theorem WellFormed.denotes (h : WellFormed depth v) : Denotes depth v.print v :=
  ⟨h.begins, h.parseValue_print⟩

theorem Denotes.withText (h : Denotes depth text v) (hr : Follows rest) :
    withText (parseValue depth) (text ++ rest) = some ((text, v), rest) := by
  obtain ⟨c, cs, he, hb⟩ := h.begins
  have hs : skipSpace (text ++ rest) = text ++ rest := by
    rw [he]
    exact skipSpace_cons hb.1 _
  rw [Json.withText, h.read rest hr, Option.map_some, hs, List.length_append, Nat.add_sub_cancel,
    List.take_left' rfl]

theorem Denotes.arr {xs : List (List Char × Json)} (h : ∀ x ∈ xs, Denotes depth x.1 x.2) :
    Denotes (depth + 1) ('[' :: (join ',' (xs.map Prod.fst) ++ [']']))
      (.arr (xs.map Prod.snd)) := by
  have hreads : Reads (Json.withText (parseValue depth)) Prod.fst xs :=
    ⟨fun x hx => (h x hx).begins, fun x hx rest hr => (h x hx).withText hr⟩
  refine ⟨⟨_, _, rfl, by decide⟩, ?_⟩
  intro rest _
  have hseq : readSeq (parseValue depth) ']' (join ',' (xs.map Prod.fst) ++ ']' :: rest) =
      some (xs.map Prod.snd, rest) := by
    rw [← readSeq_withText, hreads.readSeq (.inl rfl), Option.map_some]
  rw [List.cons_append, List.append_assoc, List.singleton_append, parseValue, beginValue,
    skipSpace_cons (by decide)]
  simp [hseq]

/-- The text of a member. -/
def entryText (e : List Char × List Char × Json) : List Char := printString e.1 ++ ':' :: e.2.1

theorem Denotes.readEntries {es : List (List Char × List Char × Json)}
    (h : ∀ e ∈ es, Denotes depth e.2.1 e.2.2) (rest : List Char) :
    readSeq (readEntry (Json.withText (parseValue depth))) '}'
      (join ',' (es.map entryText) ++ '}' :: rest) = some (es, rest) := by
  apply Reads.readSeq ?_ (.inr rfl)
  refine ⟨?_, ?_⟩
  · intro e _
    exact ⟨_, _, by rw [entryText, printString, List.cons_append], by decide⟩
  · intro e he rest hr
    rw [entryText, List.append_assoc, List.cons_append, readEntry, readKey_print]
    simp [skipSpace_cons (show isSpace ':' = false by decide), (h e he).withText hr]

end Denotes

section Literals

/-- The loop of `appendString` on runes: a byte that starts no rune is written as the escape of
U+FFFD. -/
def literalRunes : Nat → GoString → List Char
  | 0, _ => []
  | _ + 1, [] => []
  | n + 1, b :: s =>
    match decodeRune (b :: s) with
    | some c => escape c ++ literalRunes n ((b :: s).drop c.utf8Size)
    | none => ['\\', 'u', 'f', 'f', 'f', 'd'] ++ literalRunes n s

/-- The parts as which these runes are read. -/
def literalPieces : Nat → GoString → List Piece
  | 0, _ => []
  | _ + 1, [] => []
  | n + 1, b :: s =>
    match decodeRune (b :: s) with
    | some c => pieceOf c :: literalPieces n ((b :: s).drop c.utf8Size)
    | none => .unit 0xfffd :: literalPieces n s

/-- The string literal of a byte string. -/
def literal (s : GoString) : List Char := '"' :: (literalRunes s.length s ++ ['"'])

theorem readPieces_literal (n : Nat) (s : GoString) (rest : List Char) (k : Nat)
    (hk : (literalPieces n s).length < k) :
    readPieces k (literalRunes n s ++ '"' :: rest) = some (literalPieces n s, rest) := by
  induction n generalizing s k with
  | zero =>
    obtain ⟨k, rfl⟩ := Nat.exists_eq_succ_of_ne_zero (Nat.ne_of_gt (Nat.zero_lt_of_lt hk))
    rfl
  | succ n ih =>
    obtain ⟨k, rfl⟩ := Nat.exists_eq_succ_of_ne_zero (Nat.ne_of_gt (Nat.zero_lt_of_lt hk))
    cases s with
    | nil => rfl
    | cons b s =>
      rw [literalRunes, literalPieces] at *
      cases hd : decodeRune (b :: s) with
      | some c =>
        simp only [hd, List.length_cons] at hk ⊢
        rw [List.append_assoc, readPieces, readPiece_escape]
        simp only [ih _ k (Nat.lt_of_succ_lt_succ hk), Option.map_some]
      | none =>
        simp only [hd, List.length_cons] at hk ⊢
        have hp : ∀ cs, readPiece (['\\', 'u', 'f', 'f', 'f', 'd'] ++ cs) =
            some (some (.unit 0xfffd), cs) := fun cs => rfl
        rw [List.append_assoc, readPieces, hp]
        simp only [ih _ k (Nat.lt_of_succ_lt_succ hk), Option.map_some]

theorem length_literalPieces (n : Nat) (s : GoString) :
    (literalPieces n s).length ≤ (literalRunes n s).length := by
  induction n generalizing s with
  | zero => exact le_rfl
  | succ n ih =>
    cases s with
    | nil => exact le_rfl
    | cons b s =>
      rw [literalRunes, literalPieces]
      cases decodeRune (b :: s) with
      | some c =>
        have hc := length_escape_pos c
        have hn := ih ((b :: s).drop c.utf8Size)
        simp only [List.length_cons, List.length_append]
        omega
      | none =>
        have hn := ih s
        simp only [List.length_cons, List.length_append]
        omega

theorem joinPieces_replaced (ps : List Piece) :
    joinPieces (.unit 0xfffd :: ps) = '�' :: joinPieces ps := by
  cases ps with
  | nil => rfl
  | cons p ps =>
    cases p with
    | rune c => rfl
    | unit m => rfl

theorem joinPieces_pieceOf_cons (c : Char) (ps : List Piece) :
    joinPieces (pieceOf c :: ps) = c :: joinPieces ps := by
  rw [pieceOf]
  split
  · rename_i hc
    rw [joinPieces_unit (toNat_lt_of_isCoded hc.2), Char.ofNat_toNat]
  · rw [joinPieces]

theorem joinPieces_literal (n : Nat) (s : GoString) :
    joinPieces (literalPieces n s) = runesLoop n s := by
  induction n generalizing s with
  | zero => rfl
  | succ n ih =>
    cases s with
    | nil => rfl
    | cons b s =>
      rw [literalPieces, runesLoop]
      cases decodeRune (b :: s) with
      | some c => simp only [joinPieces_pieceOf_cons, ih]
      | none => simp only [joinPieces_replaced, ih, runeError]

/-- The literal of a byte string is read as its runes. -/
theorem denotes_literal (depth : Nat) (s : GoString) :
    Denotes depth (literal s) (.str (runes s)) := by
  obtain ⟨value, hv⟩ := parseValue_eq depth
  refine ⟨⟨_, _, rfl, by decide⟩, ?_⟩
  intro rest _
  have hlen := length_literalPieces s.length s
  have hread := readPieces_literal s.length s rest
    (literalRunes s.length s ++ '"' :: rest).length (by
    rw [List.length_append, List.length_cons]
    omega)
  rw [hv, literal, List.cons_append, List.append_assoc, List.singleton_append, beginValue,
    skipSpace_cons (by decide)]
  simp only [if_true, readString, hread, Option.map_some, joinPieces_literal]
  rfl

end Literals

end Json

end HyruleProxy
