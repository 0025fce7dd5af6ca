import HyruleProxy.Digits
import HyruleProxy.Quote

namespace HyruleProxy
set_option autoImplicit true

section Scan

/-- The runes that package `fmt` takes for blanks. -/
def scanSpaces : List (Nat × Nat) :=
  [(0x09, 0x0d), (0x20, 0x20), (0x85, 0x85), (0xa0, 0xa0), (0x1680, 0x1680), (0x2000, 0x200a),
    (0x2028, 0x2029), (0x202f, 0x202f), (0x205f, 0x205f), (0x3000, 0x3000)]

def isScanSpace (c : Char) : Bool := scanSpaces.any fun r => r.1 ≤ c.toNat && c.toNat ≤ r.2

/-- The model of `SkipSpace`, which fails at a newline. -/
def skipSpace : List Char → Option (List Char)
  | [] => some []
  | c :: cs =>
    if c = '\n' then none else if isScanSpace c then skipSpace cs else some (c :: cs)

/-- Whether a minus sign was read, and the text after the sign. -/
def acceptSign : List Char → Bool × List Char
  | [] => (false, [])
  | c :: cs => if c = '+' then (false, cs) else if c = '-' then (true, cs) else (false, c :: cs)

/-- The number that a text of decimal digits stands for. -/
def numeralValue (ds : List Char) : Nat := ofDigits 10 (ds.map fun c => c.toNat - 48)

/-- The verb `%d` for an `int`: the number and the unread text. -/
def scanInt (cs : List Char) : Option (Int × List Char) :=
  match skipSpace cs with
  | none => none
  | some ds =>
    let (negative, ds) := acceptSign ds
    let digits := ds.takeWhile Char.isDigit
    let n : Int := if negative then -(numeralValue digits : Int) else numeralValue digits
    if digits = [] then none
    else if n < -2 ^ 63 ∨ 2 ^ 63 ≤ n then none
    else some (n, ds.dropWhile Char.isDigit)

/-- A decimal numeral without a sign. -/
structure Numeral (ds : List Char) (n : Int) : Prop where
  ne_nil : ds ≠ []
  digits : ∀ c ∈ ds, c.isDigit = true
  value : (numeralValue ds : Int) = n

/-- A text that `%d` reads as `n`: blanks, an optional plus sign and a numeral. -/
def IntText (cs : List Char) (n : Int) : Prop :=
  ∃ b p ds, cs = b ++ (p ++ ds) ∧ (∀ c ∈ b, isScanSpace c = true ∧ c ≠ '\n') ∧
    (p = [] ∨ p = ['+']) ∧ Numeral ds n

/-- A text that does not go on with a digit. -/
def StopsDigits (cs : List Char) : Prop := ∀ c ∈ cs.head?, c.isDigit = false

theorem isScanSpace_of_isDigit (h : c.isDigit = true) : isScanSpace c = false := by
  have hc : 48 ≤ c.toNat ∧ c.toNat ≤ 57 := by
    simpa [Char.isDigit, UInt32.le_iff_toNat_le] using h
  simp only [isScanSpace, scanSpaces, List.any_cons, List.any_nil, Bool.or_false,
    Bool.or_eq_false_iff, Bool.and_eq_false_iff, decide_eq_false_iff_not]
  omega

theorem skipSpace_append {b : List Char} (hb : ∀ c ∈ b, isScanSpace c = true ∧ c ≠ '\n')
    (cs : List Char) : skipSpace (b ++ cs) = skipSpace cs := by
  induction b with
  | nil => rfl
  | cons c b ih =>
    have hc := hb c List.mem_cons_self
    rw [List.cons_append, skipSpace, if_neg hc.2, if_pos hc.1]
    exact ih fun d hd => hb d (List.mem_cons_of_mem c hd)

theorem skipSpace_of_head {cs : List Char} (h : ∀ c ∈ cs.head?, isScanSpace c = false) :
    skipSpace cs = some cs := by
  cases cs with
  | nil => rfl
  | cons c cs =>
    have hc := h c rfl
    have hn : c ≠ '\n' := by
      rintro rfl
      exact absurd hc (by decide)
    rw [skipSpace, if_neg hn, if_neg (by rw [hc]; decide)]

theorem skipSpace_eq_some {cs ds : List Char} (h : skipSpace cs = some ds) :
    ∃ b, cs = b ++ ds ∧ ∀ c ∈ b, isScanSpace c = true ∧ c ≠ '\n' := by
  induction cs with
  | nil =>
    cases h
    exact ⟨[], rfl, by simp⟩
  | cons c cs ih =>
    rw [skipSpace] at h
    split at h
    · cases h
    · rename_i hn
      split at h
      · rename_i hs
        obtain ⟨b, rfl, hb⟩ := ih h
        refine ⟨c :: b, rfl, ?_⟩
        intro d hd
        rcases List.mem_cons.1 hd with rfl | hd
        · exact ⟨hs, hn⟩
        · exact hb d hd
      · cases h
        exact ⟨[], rfl, by simp⟩

theorem takeWhile_digits {ds rest : List Char} (hd : ∀ c ∈ ds, c.isDigit = true)
    (hr : StopsDigits rest) : (ds ++ rest).takeWhile Char.isDigit = ds ∧
      (ds ++ rest).dropWhile Char.isDigit = rest := by
  rw [List.takeWhile_append_of_pos hd, List.dropWhile_append_of_pos hd]
  cases rest with
  | nil => simp
  | cons c rest => simp [hr c rfl]

theorem scanInt_intText {cs rest : List Char} (h : IntText cs n) (hn : n < 2 ^ 63)
    (hr : StopsDigits rest) : scanInt (cs ++ rest) = some (n, rest) := by
  obtain ⟨b, p, ds, rfl, hb, hp, hd⟩ := h
  obtain ⟨ht, hdr⟩ := takeWhile_digits hd.digits hr
  obtain ⟨d, ds', rfl⟩ := List.exists_cons_of_ne_nil hd.ne_nil
  have hdig := hd.digits d List.mem_cons_self
  have hspace : ∀ c ∈ (p ++ (d :: ds' ++ rest)).head?, isScanSpace c = false := by
    rcases hp with rfl | rfl
    · rintro c ⟨rfl⟩
      exact isScanSpace_of_isDigit hdig
    · rintro c ⟨rfl⟩
      decide
  have hskip : skipSpace (b ++ (p ++ d :: ds') ++ rest) = some (p ++ (d :: ds' ++ rest)) := by
    rw [List.append_assoc, List.append_assoc, skipSpace_append hb, skipSpace_of_head hspace]
  have hsign : acceptSign (p ++ (d :: ds' ++ rest)) = (false, d :: ds' ++ rest) := by
    rcases hp with rfl | rfl
    · have h₁ : d ≠ '+' := by
        rintro rfl
        exact absurd hdig (by decide)
      have h₂ : d ≠ '-' := by
        rintro rfl
        exact absurd hdig (by decide)
      simp [acceptSign, h₁, h₂]
    · simp [acceptSign]
  have hpos : ¬ (n < -2 ^ 63 ∨ 2 ^ 63 ≤ n) := by
    have := hd.value
    omega
  simp only [scanInt, hskip, hsign, ht, hdr, Bool.false_eq_true, if_false, hd.value, hpos]
  simp

theorem acceptSign_cases (ds : List Char) :
    (∃ cs, acceptSign ds = (true, cs)) ∨
      ∃ p cs, acceptSign ds = (false, cs) ∧ ds = p ++ cs ∧ (p = [] ∨ p = ['+']) := by
  cases ds with
  | nil => exact .inr ⟨[], [], rfl, rfl, .inl rfl⟩
  | cons c cs =>
    rw [acceptSign]
    split
    · rename_i hc
      exact .inr ⟨['+'], cs, rfl, by rw [hc]; rfl, .inr rfl⟩
    · split
      · exact .inl ⟨cs, rfl⟩
      · exact .inr ⟨[], c :: cs, rfl, rfl, .inl rfl⟩

theorem scanInt_eq_some {cs rest : List Char} (h : scanInt cs = some (n, rest)) (hn : 1 ≤ n) :
    ∃ t, cs = t ++ rest ∧ IntText t n ∧ StopsDigits rest := by
  rw [scanInt] at h
  cases hs : skipSpace cs with
  | none =>
    rw [hs] at h
    cases h
  | some ds =>
    obtain ⟨b, rfl, hb⟩ := skipSpace_eq_some hs
    simp only [hs] at h
    rcases acceptSign_cases ds with ⟨cs, ha⟩ | ⟨p, cs, ha, rfl, hp⟩
    · simp only [ha, if_true, Option.ite_none_left_eq_some, Option.some.injEq,
        Prod.mk.injEq] at h
      omega
    · simp only [ha, Bool.false_eq_true, if_false, Option.ite_none_left_eq_some,
        Option.some.injEq, Prod.mk.injEq] at h
      obtain ⟨hne, _, hval, rfl⟩ := h
      refine ⟨b ++ (p ++ cs.takeWhile Char.isDigit), ?_,
        ⟨b, p, _, rfl, hb, hp, hne, fun c hc => List.mem_takeWhile_imp hc, hval⟩, ?_⟩
      · rw [List.append_assoc, List.append_assoc, List.takeWhile_append_dropWhile]
      · intro c hc
        have hnot := List.head?_dropWhile_not Char.isDigit cs
        rw [Option.mem_def.1 hc] at hnot
        simpa using hnot

end Scan

/-- `%d-%d`: the two numbers and the unread text. -/
def scanRange (cs : List Char) : Option (Int × Int × List Char) :=
  match scanInt cs with
  | none => none
  | some (_, []) => none
  | some (lo, c :: ds) =>
    if c ≠ '-' then none
    else
      match scanInt ds with
      | none => none
      | some (hi, rest) => some (lo, hi, rest)

/-- The number of runes that a scan reads at most. -/
def hugeWid : Nat := 2 ^ 30

def parsePortRange (U : Unicode) (s : GoString) : Except GoString (Int × Int) :=
  match scanRange ((runes s).take hugeWid) with
  | none => .error (lit "expected MIN-MAX, got " ++ quote U s)
  | some (lo, hi, _) =>
    if lo < 1 ∨ hi > 65535 ∨ lo > hi then
      .error (lit "range " ++ lit (toString lo) ++ lit "-" ++ lit (toString hi) ++
        lit " out of bounds")
    else .ok (lo, hi)

/-- A numeral, a hyphen and a numeral. -/
def RangeText (cs : List Char) (lo hi : Int) : Prop :=
  ∃ ds es, cs = ds ++ '-' :: es ∧ Numeral ds lo ∧ Numeral es hi

def PortBounds (lo hi : Int) : Prop := 1 ≤ lo ∧ lo ≤ hi ∧ hi ≤ 65535

/-- A text that `%d-%d` reads to its end. -/
def ScanText (cs : List Char) (lo hi : Int) : Prop :=
  ∃ t u, cs = t ++ '-' :: u ∧ IntText t lo ∧ IntText u hi

/-- Where a scan of ports ends: at a rune that is no digit, or at the limit. -/
def EndsScan (read unread : List Char) : Prop :=
  read.length ≤ hugeWid ∧ (read.length = hugeWid ∨ StopsDigits unread)

def isFiller (c : Char) : Bool := isScanSpace c || c = '+'

/-- The text without its blanks and plus signs. -/
def strip (cs : List Char) : List Char := cs.filter fun c => !isFiller c

theorem scanRange_scanText {cs rest : List Char} (h : ScanText cs lo hi) (hb : PortBounds lo hi)
    (hr : StopsDigits rest) : scanRange (cs ++ rest) = some (lo, hi, rest) := by
  obtain ⟨t, u, rfl, ht, hu⟩ := h
  obtain ⟨_, hle, hhi⟩ := hb
  have hdash : StopsDigits ('-' :: (u ++ rest)) := by
    rintro c ⟨rfl⟩
    decide
  rw [List.append_assoc, List.cons_append, scanRange, scanInt_intText ht (by omega) hdash]
  simp only [ne_eq, not_true_eq_false, if_false, scanInt_intText hu (by omega) hr]

theorem scanRange_eq_some {cs rest : List Char} (h : scanRange cs = some (lo, hi, rest))
    (hb : PortBounds lo hi) : ∃ t, cs = t ++ rest ∧ ScanText t lo hi ∧ StopsDigits rest := by
  obtain ⟨hlo, hle, _⟩ := hb
  rw [scanRange] at h
  cases h₁ : scanInt cs with
  | none =>
    rw [h₁] at h
    cases h
  | some r =>
    obtain ⟨lo', ds⟩ := r
    cases ds with
    | nil =>
      simp only [h₁] at h
      cases h
    | cons c ds =>
      simp only [h₁, Option.ite_none_left_eq_some, not_not] at h
      obtain ⟨rfl, h⟩ := h
      cases h₂ : scanInt ds with
      | none =>
        rw [h₂] at h
        cases h
      | some r =>
        rw [h₂] at h
        cases h
        obtain ⟨t, rfl, ht, _⟩ := scanInt_eq_some h₁ hlo
        obtain ⟨u, rfl, hu, hr⟩ := scanInt_eq_some h₂ (hlo.trans hle)
        exact ⟨t ++ '-' :: u, by rw [List.append_assoc]; rfl, ⟨t, u, rfl, ht, hu⟩, hr⟩

/-- The parser returns a range exactly when it finds one in front of the text it reads. -/
theorem parsePortRange_eq_ok (U : Unicode) (s : GoString) :
    parsePortRange U s = .ok (lo, hi) ↔ PortBounds lo hi ∧
      ∃ read unread, runes s = read ++ unread ∧ ScanText read lo hi ∧ EndsScan read unread := by
  constructor
  · intro h
    rw [parsePortRange] at h
    cases hs : scanRange ((runes s).take hugeWid) with
    | none =>
      rw [hs] at h
      cases h
    | some r =>
      obtain ⟨lo', hi', rest⟩ := r
      simp only [hs] at h
      split at h
      · cases h
      · rename_i hb
        cases h
        have hb : PortBounds lo hi := by
          rw [PortBounds]
          omega
        obtain ⟨t, ht, hscan, hstop⟩ := scanRange_eq_some hs hb
        have hlen : t.length + rest.length = min hugeWid (runes s).length := by
          rw [← List.length_append, ← ht, List.length_take]
        refine ⟨hb, t, rest ++ (runes s).drop hugeWid, ?_, hscan, by omega, ?_⟩
        · rw [← List.append_assoc, ← ht, List.take_append_drop]
        · -- the scan has stopped at a rune that is no digit, or at the end of its window
          cases rest with
          | cons c rest =>
            right
            exact hstop
          | nil =>
            rw [List.length_nil, Nat.add_zero] at hlen
            rcases Nat.lt_or_ge (runes s).length hugeWid with hlt | hge
            · right
              rw [List.nil_append, List.drop_eq_nil_of_le hlt.le]
              nofun
            · left
              omega
  · rintro ⟨hb, t, rest, hrun, hscan, hlen, hend⟩
    have htake : (runes s).take hugeWid = t ++ rest.take (hugeWid - t.length) := by
      rw [hrun, List.take_append, List.take_of_length_le hlen]
    have hstop : StopsDigits (rest.take (hugeWid - t.length)) := by
      intro c hc
      rcases hend with he | hs
      · rw [he, Nat.sub_self, List.take_zero] at hc
        cases hc
      · apply hs c
        rw [List.head?_take] at hc
        split at hc
        · cases hc
        · exact hc
    have hok : ¬ (lo < 1 ∨ hi > 65535 ∨ lo > hi) := by
      obtain ⟨h₁, h₂, h₃⟩ := hb
      omega
    rw [parsePortRange, htake, scanRange_scanText hscan hb hstop]
    exact if_neg hok

theorem isFiller_of_isDigit (h : c.isDigit = true) : isFiller c = false := by
  rw [isFiller, isScanSpace_of_isDigit h, Bool.false_or, decide_eq_false_iff_not]
  rintro rfl
  exact absurd h (by decide)

theorem strip_append (cs ds : List Char) : strip (cs ++ ds) = strip cs ++ strip ds :=
  List.filter_append cs ds

theorem Numeral.strip {ds : List Char} (h : Numeral ds n) : strip ds = ds := by
  apply List.filter_eq_self.2
  intro c hc
  rw [isFiller_of_isDigit (h.digits c hc), Bool.not_false]

theorem IntText.strip {cs : List Char} (h : IntText cs n) : Numeral (strip cs) n := by
  obtain ⟨b, p, ds, rfl, hb, hp, hd⟩ := h
  have hb : HyruleProxy.strip b = [] := by
    apply List.filter_eq_nil_iff.2
    intro c hc
    simp [isFiller, (hb c hc).1]
  have hp : HyruleProxy.strip p = [] := by
    rcases hp with rfl | rfl
    · rfl
    · decide
  rw [strip_append, strip_append, hb, hp, hd.strip]
  exact hd

theorem ScanText.strip {cs : List Char} (h : ScanText cs lo hi) :
    RangeText (strip cs) lo hi := by
  obtain ⟨t, u, rfl, ht, hu⟩ := h
  refine ⟨_, _, ?_, ht.strip, hu.strip⟩
  rw [strip_append]
  rfl

theorem numeralValue_append (ds es : List Char) (h : ∀ c ∈ es, c.isDigit = true) :
    numeralValue ds * 10 ^ es.length ≤ numeralValue (ds ++ es) := by
  have hlt : ∀ d ∈ es.map (fun c => c.toNat - 48), d < 10 := by
    intro d hd
    obtain ⟨c, hc, rfl⟩ := List.mem_map.1 hd
    have hle : 48 ≤ c.toNat ∧ c.toNat ≤ 57 := by
      simpa [Char.isDigit, UInt32.le_iff_toNat_le] using h c hc
    omega
  have hdiv := ofDigits_div (by decide : 1 < 10) (ds.map fun c => c.toNat - 48) hlt
  rw [List.length_map] at hdiv
  rw [numeralValue, numeralValue, List.map_append, ← hdiv]
  exact Nat.div_mul_le_self _ _

theorem Numeral.not_mem_hyphen {ds : List Char} (h : Numeral ds n) : '-' ∉ ds := by
  intro hm
  exact absurd (h.digits '-' hm) (by decide)

theorem RangeText.rest_eq_nil {cs rest : List Char} (h : RangeText cs lo hi)
    (h' : RangeText (cs ++ rest) lo hi) (hhi : 1 ≤ hi) : rest = [] := by
  obtain ⟨ds, es, rfl, hd, he⟩ := h
  obtain ⟨ds', es', heq, hd', he'⟩ := h'
  rw [List.append_assoc, List.cons_append] at heq
  have hes : es' = es ++ rest :=
    ((List.append_cons_inj_of_notMem hd'.not_mem_hyphen he'.not_mem_hyphen).1 heq.symm).2.2
  subst hes
  by_contra hne
  have hle := numeralValue_append es rest fun c hc => he'.digits c (List.mem_append_right es hc)
  have hpow : 10 ^ 1 ≤ 10 ^ rest.length :=
    Nat.pow_le_pow_right (by decide) (List.length_pos_iff.2 hne)
  have hmul := Nat.mul_le_mul_left (numeralValue es) hpow
  have h₁ := he.value
  have h₂ := he'.value
  omega

theorem RangeText.scanText {cs : List Char} (h : RangeText cs lo hi) : ScanText cs lo hi := by
  obtain ⟨ds, es, rfl, hd, he⟩ := h
  exact ⟨ds, es, rfl, ⟨[], [], ds, rfl, by simp, .inl rfl, hd⟩,
    ⟨[], [], es, rfl, by simp, .inl rfl, he⟩⟩

/-- The parser takes every range text, and returns a range only for a text that is one up to
blanks and plus signs. -/
structure ParsesRanges (U : Unicode) (s : GoString) : Prop where
  complete : ∀ lo hi, RangeText (runes s) lo hi → PortBounds lo hi →
    parsePortRange U s = .ok (lo, hi)
  sound : ∀ lo hi, parsePortRange U s = .ok (lo, hi) →
    PortBounds lo hi ∧ RangeText (strip (runes s)) lo hi

/-- A range text is not longer than what a scan reads, and behind a range of ports that a scan
finds in front of the text there are only blanks and plus signs. -/
structure NothingUnread (s : GoString) : Prop where
  short : ∀ lo hi, RangeText (runes s) lo hi → PortBounds lo hi → (runes s).length ≤ hugeWid
  rest : ∀ read unread lo hi, runes s = read ++ unread → ScanText read lo hi →
    PortBounds lo hi → EndsScan read unread → ∀ c ∈ unread, isFiller c = true

theorem strip_eq_nil {cs : List Char} : strip cs = [] ↔ ∀ c ∈ cs, isFiller c = true := by
  simp [strip, List.filter_eq_nil_iff]

theorem RangeText.strip {cs : List Char} (h : RangeText cs lo hi) : strip cs = cs := by
  obtain ⟨ds, es, rfl, hd, he⟩ := h
  have hdash : HyruleProxy.strip ('-' :: es) = '-' :: HyruleProxy.strip es := rfl
  rw [strip_append, hd.strip, hdash, he.strip]

theorem parsesRanges_iff (U : Unicode) (s : GoString) :
    ParsesRanges U s ↔ NothingUnread s := by
  constructor
  · intro h
    have hrest : ∀ read unread lo hi, runes s = read ++ unread → ScanText read lo hi →
        PortBounds lo hi → EndsScan read unread → ∀ c ∈ unread, isFiller c = true := by
      intro read unread lo hi hrun hscan hb hend
      have hok := (parsePortRange_eq_ok U s).2 ⟨hb, read, unread, hrun, hscan, hend⟩
      have htext := (h.sound lo hi hok).2
      rw [hrun, strip_append] at htext
      exact strip_eq_nil.1 (hscan.strip.rest_eq_nil htext (hb.1.trans hb.2.1))
    refine ⟨?_, hrest⟩
    intro lo hi htext hb
    obtain ⟨_, read, unread, hrun, hscan, hend⟩ :=
      (parsePortRange_eq_ok U s).1 (h.complete lo hi htext hb)
    -- what is unread is filler, but a range text holds none
    have hnil : unread = [] := by
      have hs := htext.strip
      rw [hrun, strip_append, strip_eq_nil.2 (hrest _ _ _ _ hrun hscan hb hend),
        List.append_nil] at hs
      have hlen := congrArg List.length hs
      have hle := List.length_filter_le (fun c => !isFiller c) read
      rw [List.length_append] at hlen
      apply List.length_eq_zero_iff.1
      change (HyruleProxy.strip read).length ≤ read.length at hle
      omega
    rw [hrun, hnil, List.append_nil]
    exact hend.1
  · intro h
    constructor
    · intro lo hi htext hb
      refine (parsePortRange_eq_ok U s).2 ⟨hb, runes s, [], (List.append_nil _).symm,
        htext.scanText, h.short lo hi htext hb, .inr nofun⟩
    · intro lo hi hok
      obtain ⟨hb, read, unread, hrun, hscan, hend⟩ := (parsePortRange_eq_ok U s).1 hok
      refine ⟨hb, ?_⟩
      rw [hrun, strip_append, strip_eq_nil.2 (h.rest _ _ _ _ hrun hscan hb hend),
        List.append_nil]
      exact hscan.strip

/-- Text behind the second number is not noticed. -/
theorem parsePortRange_ignores_rest :
    parsePortRange asciiTables (lit "10000-10499xyz") = .ok (10000, 10499) ∧
      ¬ ParsesRanges asciiTables (lit "10000-10499xyz") := by
  have hok : parsePortRange asciiTables (lit "10000-10499xyz") = .ok (10000, 10499) := by
    decide
  refine ⟨hok, ?_⟩
  intro h
  obtain ⟨_, ds, es, heq, hd, he⟩ := h.sound _ _ hok
  have hx : 'x' ∈ ds ++ '-' :: es := by
    rw [← heq]
    decide
  rcases List.mem_append.1 hx with hx | hx
  · exact absurd (hd.digits 'x' hx) (by decide)
  · rcases List.mem_cons.1 hx with hx | hx
    · exact absurd hx (by decide)
    · exact absurd (he.digits 'x' hx) (by decide)

end HyruleProxy
