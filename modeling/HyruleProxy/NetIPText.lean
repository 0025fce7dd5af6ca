import HyruleProxy.NetIP

namespace HyruleProxy
set_option autoImplicit true

def digitChar (d : Nat) : UInt8 := if d < 10 then (48 + d).toUInt8 else (87 + d).toUInt8

def decDigits (n : Nat) : List Nat :=
  if n < 10 then [n] else if n < 100 then [n / 10, n % 10] else [n / 100, n / 10 % 10, n % 10]

def hexDigits (n : Nat) : List Nat :=
  if n < 16 then [n]
  else if n < 256 then [n / 16, n % 16]
  else if n < 4096 then [n / 256, n / 16 % 16, n % 16]
  else [n / 4096, n / 256 % 16, n / 16 % 16, n % 16]

def appendDecimal (x : UInt8) : GoString := (decDigits x.toNat).map digitChar

def appendHex (x : UInt16) : GoString := (hexDigits x.toNat).map digitChar

def separated (sep : UInt8) : List GoString → GoString
  | [] => []
  | [t] => t
  | t :: u :: ts => t ++ sep :: separated sep (u :: ts)

def octetText (o : List UInt8) : GoString := separated (ch '.') (o.map appendDecimal)

def groupText (g : List UInt16) : GoString := separated (ch ':') (g.map appendHex)

/-- One turn of the search for the longest run of zero groups, as its start and length. -/
def longerRun (g : List UInt16) (run : Nat × Nat) (i : Nat) : Nat × Nat :=
  let l := ((g.drop i).takeWhile (· = 0)).length
  if 2 ≤ l ∧ run.2 < l then (i, l) else run

def zeroRun (g : List UInt16) : Nat × Nat := (List.range 8).foldl (longerRun g) (255, 0)

/-- The groups of an IPv6 address, with the first longest run of two or more zeros written as
an ellipsis. -/
def string6 (g : List UInt16) : GoString :=
  match zeroRun g with
  | (_, 0) => groupText g
  | (i, l + 1) => groupText (g.take i) ++ ch ':' :: ch ':' :: groupText (g.drop (i + (l + 1)))

def zoneText (zone : GoString) : GoString := if zone = [] then [] else ch '%' :: zone

/-- The model of `netip.Addr.String`. -/
def Addr.string : Addr → GoString
  | .zero => lit "invalid IP"
  | .ip4 o => octetText o.1
  | .ip6 g zone =>
    (if (Addr.ip6 g zone).is4In6 then lit "::ffff:" ++ octetText (lowOctets g).1
      else string6 g.1) ++ zoneText zone

theorem hexDigit_digitChar (hd : d < 16) : hexDigit (digitChar d) = some d := by
  revert d
  decide

theorem decDigit_digitChar (hd : d < 10) : decDigit (digitChar d) = some d := by
  revert d
  decide

theorem hexDigits_lt (n : Nat) (hn : n < 65536) (hd : d ∈ hexDigits n) : d < 16 := by
  rw [hexDigits] at hd
  split at hd
  · simp only [List.mem_singleton] at hd
    omega
  · split at hd
    · simp only [List.mem_cons, List.not_mem_nil, or_false] at hd
      omega
    · split at hd
      · simp only [List.mem_cons, List.not_mem_nil, or_false] at hd
        omega
      · simp only [List.mem_cons, List.not_mem_nil, or_false] at hd
        omega

theorem decDigits_lt (n : Nat) (hn : n < 256) (hd : d ∈ decDigits n) : d < 10 := by
  rw [decDigits] at hd
  split at hd
  · simp only [List.mem_singleton] at hd
    omega
  · split at hd
    · simp only [List.mem_cons, List.not_mem_nil, or_false] at hd
      omega
    · simp only [List.mem_cons, List.not_mem_nil, or_false] at hd
      omega

theorem hexDigits_length (n : Nat) : 1 ≤ (hexDigits n).length ∧ (hexDigits n).length ≤ 4 := by
  rw [hexDigits]
  split
  · simp
  · split
    · simp
    · split
      · simp
      · simp

theorem hexDigits_value (n : Nat) : (hexDigits n).foldl (fun v d => v * 16 + d) 0 = n := by
  rw [hexDigits]
  split
  · simp
  · split
    · simp only [List.foldl_cons, List.foldl_nil]
      omega
    · split
      · simp only [List.foldl_cons, List.foldl_nil]
        omega
      · simp only [List.foldl_cons, List.foldl_nil]
        omega

theorem parseHexGroup_end (hr : rest.head?.bind hexDigit = none) :
    parseHexGroup rest off acc = some (off, acc, rest) := by
  cases rest with
  | nil => rfl
  | cons b s =>
    have hb : hexDigit b = none := hr
    rw [parseHexGroup, hb]

theorem parseHexGroup_digits (ds : List Nat) (hd : ∀ d ∈ ds, d < 16)
    (hr : rest.head?.bind hexDigit = none) (hl : off + ds.length ≤ 4) (ha : acc < 16 ^ off) :
    parseHexGroup (ds.map digitChar ++ rest) off acc =
      some (off + ds.length, ds.foldl (fun v d => v * 16 + d) acc, rest) := by
  induction ds generalizing off acc with
  | nil => exact parseHexGroup_end hr
  | cons d ds ih =>
    have hd0 : d < 16 := hd d List.mem_cons_self
    rw [List.length_cons] at hl
    have hp : 16 ^ off ≤ 16 ^ 3 := Nat.pow_le_pow_right (by decide) (by omega)
    have ha' : acc * 16 + d < 16 ^ (off + 1) := by
      rw [Nat.pow_succ]
      omega
    rw [List.map_cons, List.cons_append, parseHexGroup, hexDigit_digitChar hd0]
    simp only
    rw [if_neg (by omega), if_neg (by omega)]
    rw [ih (fun e he => hd e (List.mem_cons_of_mem d he)) (by omega) ha']
    rw [List.length_cons, List.foldl_cons]
    congr 2
    omega

theorem parseHexGroup_appendHex (x : UInt16) (rest : GoString)
    (hr : rest.head?.bind hexDigit = none) :
    parseHexGroup (appendHex x ++ rest) 0 0 =
      some ((hexDigits x.toNat).length, x.toNat, rest) := by
  have hx : x.toNat < 65536 := x.toNat_lt
  have hl := (hexDigits_length x.toNat).2
  rw [appendHex, parseHexGroup_digits _ (fun d hd => hexDigits_lt _ hx hd) hr (by omega)
    (by decide), hexDigits_value, Nat.zero_add]

theorem parseIPv6Groups_last (x : UInt16) :
    parseIPv6Groups (n + 1) (appendHex x) gs e = some (gs ++ [x], e, []) := by
  have hl := (hexDigits_length x.toNat).1
  have hp := parseHexGroup_appendHex x [] rfl
  have hx : x.toNat.toUInt16 = x := UInt16.ofNat_toNat
  rw [List.append_nil] at hp
  rw [parseIPv6Groups, hp]
  simp only [hx]
  rw [if_neg (by omega), if_neg (by decide)]

theorem parseIPv6Groups_colon (x : UInt16) (hc : c ≠ ch ':') :
    parseIPv6Groups (n + 1) (appendHex x ++ ch ':' :: c :: t) gs e =
      parseIPv6Groups n (c :: t) (gs ++ [x]) e := by
  have hl := (hexDigits_length x.toNat).1
  have hp := parseHexGroup_appendHex x (ch ':' :: c :: t) rfl
  have hx : x.toNat.toUInt16 = x := UInt16.ofNat_toNat
  have hd : (ch ':' :: c :: t).head? ≠ some (ch '.') := by
    rw [List.head?_cons]
    decide
  rw [parseIPv6Groups, hp]
  simp only [hx]
  rw [if_neg (by omega), if_neg hd, if_neg (by simp), if_neg hc]

theorem parseIPv6Groups_ellipsis (x : UInt16) :
    parseIPv6Groups (n + 1) (appendHex x ++ ch ':' :: ch ':' :: t) gs none =
      if t = [] then some (gs ++ [x], some (gs.length + 1), [])
      else parseIPv6Groups n t (gs ++ [x]) (some (gs.length + 1)) := by
  have hl := (hexDigits_length x.toNat).1
  have hp := parseHexGroup_appendHex x (ch ':' :: ch ':' :: t) rfl
  have hx : x.toNat.toUInt16 = x := UInt16.ofNat_toNat
  have hd : (ch ':' :: ch ':' :: t).head? ≠ some (ch '.') := by
    rw [List.head?_cons]
    decide
  rw [parseIPv6Groups, hp]
  simp only [hx]
  rw [if_neg (by omega), if_neg hd, if_neg (by simp), if_pos trivial, if_neg (by decide)]

theorem groupText_cons_cons (x y : UInt16) (l : List UInt16) :
    groupText (x :: y :: l) = appendHex x ++ ch ':' :: groupText (y :: l) := rfl

theorem appendHex_cons (x : UInt16) : ∃ d t, d < 16 ∧ appendHex x = digitChar d :: t := by
  have hx : x.toNat < 65536 := x.toNat_lt
  have hl := (hexDigits_length x.toNat).1
  cases h : hexDigits x.toNat with
  | nil =>
    rw [h] at hl
    exact absurd hl (by decide)
  | cons d ds =>
    have hd : d < 16 := hexDigits_lt _ hx (by rw [h]; exact List.mem_cons_self)
    exact ⟨d, ds.map digitChar, hd, by rw [appendHex, h]; rfl⟩

theorem groupText_cons (x : UInt16) (l : List UInt16) :
    ∃ d t, d < 16 ∧ groupText (x :: l) = digitChar d :: t := by
  obtain ⟨d, t, hd, ht⟩ := appendHex_cons x
  cases l with
  | nil => exact ⟨d, t, hd, ht⟩
  | cons y l =>
    rw [groupText_cons_cons, ht]
    exact ⟨d, _, hd, rfl⟩

theorem digitChar_ne_colon (hd : d < 16) : digitChar d ≠ ch ':' := by
  revert d
  decide

theorem parseIPv6Groups_groupText (x : UInt16) (l : List UInt16) (hn : l.length < n) :
    parseIPv6Groups n (groupText (x :: l)) gs e = some (gs ++ x :: l, e, []) := by
  induction l generalizing x n gs with
  | nil =>
    obtain ⟨m, rfl⟩ := Nat.exists_eq_succ_of_ne_zero (Nat.ne_of_gt hn)
    exact parseIPv6Groups_last x
  | cons y l ih =>
    obtain ⟨m, rfl⟩ := Nat.exists_eq_succ_of_ne_zero (Nat.ne_of_gt (Nat.zero_lt_of_lt hn))
    obtain ⟨d, t, hd, ht⟩ := groupText_cons y l
    rw [List.length_cons] at hn
    rw [groupText_cons_cons, ht, parseIPv6Groups_colon x (digitChar_ne_colon hd), ← ht,
      ih y (by omega), List.append_assoc]
    rfl

theorem parseIPv6Groups_groupText_ellipsis (x : UInt16) (l r : List UInt16)
    (hn : l.length + r.length < n) :
    parseIPv6Groups n (groupText (x :: l) ++ ch ':' :: ch ':' :: groupText r) gs none =
      some (gs ++ x :: l ++ r, some (gs.length + (x :: l).length), []) := by
  induction l generalizing x n gs with
  | nil =>
    obtain ⟨m, rfl⟩ := Nat.exists_eq_succ_of_ne_zero (Nat.ne_of_gt (Nat.zero_lt_of_lt hn))
    rw [show groupText [x] = appendHex x from rfl, parseIPv6Groups_ellipsis]
    cases r with
    | nil =>
      rw [if_pos (show groupText [] = [] from rfl), List.append_nil]
      rfl
    | cons y r =>
      obtain ⟨d, t, hd, ht⟩ := groupText_cons y r
      rw [List.length_nil, List.length_cons] at hn
      rw [if_neg (by rw [ht]; exact List.cons_ne_nil _ _),
        parseIPv6Groups_groupText y r (by omega)]
      rfl
  | cons y l ih =>
    obtain ⟨m, rfl⟩ := Nat.exists_eq_succ_of_ne_zero (Nat.ne_of_gt (Nat.zero_lt_of_lt hn))
    obtain ⟨d, t, hd, ht⟩ := groupText_cons y l
    rw [List.length_cons] at hn
    rw [groupText_cons_cons, ht, List.append_assoc, List.cons_append, List.cons_append,
      parseIPv6Groups_colon x (digitChar_ne_colon hd), ← List.cons_append, ← ht,
      ih y (by omega)]
    have hl : gs.length + 1 + (l.length + 1) = gs.length + (l.length + 1 + 1) := by omega
    simp only [List.append_assoc, List.cons_append, List.nil_append, List.length_append,
      List.length_cons, List.length_nil, hl]

/-- The run holds no group, or it is a run of two or more zeros. -/
def IsZeroRun (g : List UInt16) (run : Nat × Nat) : Prop :=
  run.2 = 0 ∨ g = g.take run.1 ++ List.replicate run.2 0 ++ g.drop (run.1 + run.2)

theorem IsZeroRun.longerRun (h : IsZeroRun g run) (i : Nat) :
    IsZeroRun g (longerRun g run i) := by
  rw [HyruleProxy.longerRun]
  split
  · apply Or.inr
    have hz : (g.drop i).takeWhile (· = 0) =
        List.replicate ((g.drop i).takeWhile (· = 0)).length 0 := by
      apply List.eq_replicate_of_mem
      intro x hx
      have hx := List.mem_takeWhile_imp hx
      simpa using hx
    have hd : (g.drop i).dropWhile (· = 0) =
        g.drop (i + ((g.drop i).takeWhile (· = 0)).length) := by
      have he := congrArg (List.drop ((g.drop i).takeWhile (· = 0)).length)
        (List.takeWhile_append_dropWhile (p := (· = 0)) (l := g.drop i))
      rw [List.drop_left, List.drop_drop] at he
      exact he
    rw [← hz, ← hd, List.append_assoc, List.takeWhile_append_dropWhile, List.take_append_drop]
  · exact h

theorem isZeroRun_foldl (h : IsZeroRun g run) (is : List Nat) :
    IsZeroRun g (is.foldl (longerRun g) run) := by
  induction is generalizing run with
  | nil => exact h
  | cons i is ih => exact ih (h.longerRun i)

theorem isZeroRun_zeroRun (g : List UInt16) : IsZeroRun g (zeroRun g) :=
  isZeroRun_foldl (.inl rfl) _

theorem parseIPv6Body_groupText (g : Groups) (zone : GoString) :
    parseIPv6Body (groupText g.1) zone = some (.ip6 g zone) := by
  obtain ⟨g, hg⟩ := g
  cases g with
  | nil => cases hg
  | cons x l =>
    obtain ⟨d, t, hd, ht⟩ := groupText_cons x l
    have hl : l.length < 8 := by
      rw [List.length_cons] at hg
      omega
    have hp : ¬(ch ':' :: ch ':' :: []).isPrefixOf (groupText (x :: l)) = true := by
      rw [ht, List.isPrefixOf_cons_cons, Bool.and_eq_true]
      intro h
      exact digitChar_ne_colon hd (eq_of_beq h.1).symm
    have hm : expandEllipsis zone (x :: l, none, []) = some (.ip6 ⟨x :: l, hg⟩ zone) := by
      rw [expandEllipsis, if_neg (by simp), if_neg (by omega), if_neg (by decide), mkIP6,
        dif_pos hg]
    rw [parseIPv6Body, if_neg hp, parseIPv6Groups_groupText x l hl]
    exact hm

theorem expandEllipsis_run (zone : GoString) (g : Groups) (l r : List UInt16) (k : Nat)
    (hk : 0 < k) (hg : g.1 = l ++ List.replicate k 0 ++ r) :
    expandEllipsis zone (l ++ r, some l.length, []) = some (.ip6 g zone) := by
  have h8 := g.2
  rw [hg, List.length_append, List.length_append, List.length_replicate] at h8
  have hn : 8 - (l ++ r).length = k := by
    rw [List.length_append]
    omega
  have hs : (l ++ r).length < 8 := by
    rw [List.length_append]
    omega
  rw [expandEllipsis, if_neg (by simp), if_pos hs, hn, List.take_left, List.drop_left, ← hg,
    mkIP6, dif_pos g.2]

theorem parseIPv6Body_run (g : Groups) (zone : GoString) (l r : List UInt16) (k : Nat)
    (hk : 0 < k) (hg : g.1 = l ++ List.replicate k 0 ++ r) :
    parseIPv6Body (groupText l ++ ch ':' :: ch ':' :: groupText r) zone = some (.ip6 g zone) := by
  have h8 := g.2
  rw [hg, List.length_append, List.length_append, List.length_replicate] at h8
  cases l with
  | nil =>
    rw [show groupText [] = [] from rfl, List.nil_append, parseIPv6Body, if_pos (by simp)]
    rw [show (ch ':' :: ch ':' :: groupText r).drop 2 = groupText r from rfl]
    cases r with
    | nil =>
      have hk8 : k = 8 := by simpa using h8
      have hz : List.replicate 8 0 = g.1 := by
        rw [hg, hk8]
        rfl
      rw [if_pos (show groupText [] = [] from rfl), hz, mkIP6, dif_pos g.2]
    | cons y r =>
      obtain ⟨d, t, hd, ht⟩ := groupText_cons y r
      have hr : r.length < 8 := by
        rw [List.length_cons] at h8
        omega
      rw [if_neg (by rw [ht]; exact List.cons_ne_nil _ _), parseIPv6Groups_groupText y r hr]
      exact expandEllipsis_run zone g [] (y :: r) k hk hg
  | cons x l =>
    obtain ⟨d, t, hd, ht⟩ := groupText_cons x l
    have hlr : l.length + r.length < 8 := by
      rw [List.length_cons] at h8
      omega
    have hp : ¬(ch ':' :: ch ':' :: []).isPrefixOf
        (groupText (x :: l) ++ ch ':' :: ch ':' :: groupText r) = true := by
      rw [ht, List.cons_append, List.isPrefixOf_cons_cons, Bool.and_eq_true]
      intro h
      exact digitChar_ne_colon hd (eq_of_beq h.1).symm
    rw [parseIPv6Body, if_neg hp, parseIPv6Groups_groupText_ellipsis x l r hlr]
    rw [List.nil_append, List.length_nil, Nat.zero_add]
    exact expandEllipsis_run zone g (x :: l) r k hk hg

theorem parseIPv6Body_string6 (g : Groups) (zone : GoString) :
    parseIPv6Body (string6 g.1) zone = some (.ip6 g zone) := by
  have hz := isZeroRun_zeroRun g.1
  rw [string6]
  split
  · exact parseIPv6Body_groupText g zone
  · rename_i i l he
    rw [he] at hz
    cases hz with
    | inl h => cases h
    | inr h => exact parseIPv6Body_run g zone _ _ (l + 1) (Nat.succ_pos l) h

theorem parseIPv4Fields_digit (hd : d < 10) (hz : ¬(n = 1 ∧ val = 0))
    (hv : val * 10 + d ≤ 255) :
    parseIPv4Fields (digitChar d :: s) fields val n =
      parseIPv4Fields s fields (val * 10 + d) (n + 1) := by
  rw [parseIPv4Fields, decDigit_digitChar hd]
  simp only
  rw [if_neg hz, if_neg (by omega)]

theorem parseIPv4Fields_decimal (x : UInt8) (rest : GoString) (fields : List UInt8) :
    ∃ n, n ≠ 0 ∧ parseIPv4Fields (appendDecimal x ++ rest) fields 0 0 =
      parseIPv4Fields rest fields x.toNat n := by
  have hx : x.toNat < 256 := x.toNat_lt
  refine ⟨(decDigits x.toNat).length, ?_⟩
  rw [appendDecimal, decDigits]
  split
  · refine ⟨by simp, ?_⟩
    rw [List.map_cons, List.cons_append, parseIPv4Fields_digit (by omega) (by omega) (by omega),
      Nat.zero_mul, Nat.zero_add]
    rfl
  · split
    · refine ⟨by simp, ?_⟩
      simp only [List.map_cons, List.map_nil, List.cons_append, List.nil_append]
      rw [parseIPv4Fields_digit (by omega) (by omega) (by omega),
        parseIPv4Fields_digit (by omega) (by omega) (by omega)]
      congr 1
      omega
    · refine ⟨by simp, ?_⟩
      simp only [List.map_cons, List.map_nil, List.cons_append, List.nil_append]
      rw [parseIPv4Fields_digit (by omega) (by omega) (by omega),
        parseIPv4Fields_digit (by omega) (by omega) (by omega),
        parseIPv4Fields_digit (by omega) (by omega) (by omega)]
      congr 1
      omega

theorem parseIPv4Fields_dot (hn : n ≠ 0) (hs : s ≠ []) (hf : fields.length ≠ 3) :
    parseIPv4Fields (ch '.' :: s) fields val n =
      parseIPv4Fields s (fields ++ [val.toUInt8]) 0 0 := by
  have hd : decDigit (ch '.') = none := by decide
  rw [parseIPv4Fields, hd]
  simp only
  rw [if_pos trivial, if_neg (by simp [hn, hs]), if_neg hf]

theorem parseIPv4Fields_octet (x : UInt8) (hs : s ≠ []) (hf : fields.length ≠ 3) :
    parseIPv4Fields (appendDecimal x ++ ch '.' :: s) fields 0 0 =
      parseIPv4Fields s (fields ++ [x]) 0 0 := by
  obtain ⟨n, hn, he⟩ := parseIPv4Fields_decimal x (ch '.' :: s) fields
  have hx : x.toNat.toUInt8 = x := UInt8.ofNat_toNat
  rw [he, parseIPv4Fields_dot hn hs hf, hx]

theorem appendDecimal_cons (x : UInt8) : ∃ d t, d < 10 ∧ appendDecimal x = digitChar d :: t := by
  have hx : x.toNat < 256 := x.toNat_lt
  cases h : decDigits x.toNat with
  | nil =>
    rw [decDigits] at h
    split at h
    · cases h
    · split at h
      · cases h
      · cases h
  | cons d ds =>
    have hd : d < 10 := decDigits_lt _ hx (by rw [h]; exact List.mem_cons_self)
    exact ⟨d, ds.map digitChar, hd, by rw [appendDecimal, h]; rfl⟩

theorem octetText_eq (a b c d : UInt8) :
    octetText [a, b, c, d] = appendDecimal a ++ ch '.' :: (appendDecimal b ++
      ch '.' :: (appendDecimal c ++ ch '.' :: appendDecimal d)) := rfl

theorem parseIPv4Fields_octetText (a b c d : UInt8) :
    parseIPv4Fields (octetText [a, b, c, d]) [] 0 0 = some [a, b, c, d] := by
  obtain ⟨n, _, he⟩ := parseIPv4Fields_decimal d [] [a, b, c]
  have hd : d.toNat.toUInt8 = d := UInt8.ofNat_toNat
  have hne : appendDecimal d ≠ [] := by
    obtain ⟨e, t, _, ht⟩ := appendDecimal_cons d
    rw [ht]
    exact List.cons_ne_nil _ _
  rw [octetText_eq, parseIPv4Fields_octet a (by simp) (by decide),
    parseIPv4Fields_octet b (by simp) (by simp), parseIPv4Fields_octet c hne (by simp)]
  rw [List.append_nil] at he
  simp only [List.nil_append, List.cons_append]
  rw [he, parseIPv4Fields, if_neg (by simp), hd]
  rfl

theorem parseHexGroup_appendDecimal (x : UInt8) (s : GoString) :
    ∃ n v, n ≠ 0 ∧ parseHexGroup (appendDecimal x ++ ch '.' :: s) 0 0 =
      some (n, v, ch '.' :: s) := by
  have hx : x.toNat < 256 := x.toNat_lt
  have hl : (decDigits x.toNat).length ≠ 0 ∧ (decDigits x.toNat).length ≤ 4 := by
    rw [decDigits]
    split
    · simp
    · split
      · simp
      · simp
  have hd : ∀ d ∈ decDigits x.toNat, d < 16 := by
    intro d hd
    have := decDigits_lt _ hx hd
    omega
  exact ⟨_, _, by omega, parseHexGroup_digits _ hd rfl (by omega) (by decide)⟩

theorem parseIPv6Groups_octetText (o : Octets) (hg : gs.length + 2 ≤ 8) :
    parseIPv6Groups (n + 1) (octetText o.1) gs (some e) =
      some (gs ++ octetGroups o.1, some e, []) := by
  obtain ⟨o, ho⟩ := o
  obtain ⟨a, b, c, d, rfl⟩ := List.length_eq_four.1 ho
  obtain ⟨k, v, hk, hp⟩ := parseHexGroup_appendDecimal a (appendDecimal b ++
    ch '.' :: (appendDecimal c ++ ch '.' :: appendDecimal d))
  rw [← octetText_eq] at hp
  rw [parseIPv6Groups, hp]
  simp only
  rw [if_neg hk, if_pos (List.head?_cons), if_neg (by simp), if_neg (by omega),
    parseIPv4Fields_octetText]
  rfl

theorem octetGroups_split (x y : UInt16) :
    octetGroups [(x >>> 8).toUInt8, x.toUInt8, (y >>> 8).toUInt8, y.toUInt8] = [x, y] := by
  have h : ∀ z : UInt16, (z >>> 8).toUInt8.toUInt16 * 256 + z.toUInt8.toUInt16 = z := by
    intro z
    apply UInt16.toNat_inj.1
    have hz := z.toNat_lt
    simp only [UInt16.toNat_add, UInt16.toNat_mul, UInt8.toNat_toUInt16, UInt16.toNat_toUInt8,
      UInt16.toNat_shiftRight, UInt16.reduceToNat, Nat.shiftRight_eq_div_pow, Nat.reduceMod,
      Nat.reducePow]
    omega
  rw [octetGroups, h x, h y]

theorem groups_of_is4In6 (h : (Addr.ip6 g zone).is4In6 = true) :
    g.1 = List.replicate 5 0 ++ 0xffff :: octetGroups (Addr.lowOctets g).1 := by
  obtain ⟨g, hg⟩ := g
  have ht : g.take 6 = [0, 0, 0, 0, 0, 0xffff] := of_decide_eq_true h
  have hd : g.drop 6 = octetGroups (Addr.lowOctets ⟨g, hg⟩).1 := by
    have hl : (g.drop 6).length = 2 := by
      rw [List.length_drop, hg]
    obtain ⟨x, y, hxy⟩ := List.length_eq_two.1 hl
    have h6 : g.getD 6 0 = x := by
      have := congrArg (fun l => l.getD 0 0) hxy
      simpa [List.getD_eq_getElem?_getD] using this
    have h7 : g.getD 7 0 = y := by
      have := congrArg (fun l => l.getD 1 0) hxy
      simpa [List.getD_eq_getElem?_getD] using this
    rw [Addr.lowOctets]
    simp only [h6, h7]
    rw [octetGroups_split, hxy]
  rw [← hd]
  have he := List.take_append_drop 6 g
  rw [ht] at he
  exact he.symm

theorem octetText_cons (o : Octets) : ∃ d t, d < 10 ∧ octetText o.1 = digitChar d :: t := by
  obtain ⟨o, ho⟩ := o
  obtain ⟨a, b, c, d, rfl⟩ := List.length_eq_four.1 ho
  obtain ⟨e, t, he, ht⟩ := appendDecimal_cons a
  rw [octetText_eq, ht]
  exact ⟨e, _, he, rfl⟩

theorem parseIPv6Body_mapped (h : (Addr.ip6 g zone).is4In6 = true) (z : GoString) :
    parseIPv6Body (lit "::ffff:" ++ octetText (Addr.lowOctets g).1) z = some (.ip6 g z) := by
  have hs : lit "::ffff:" ++ octetText (Addr.lowOctets g).1 =
      ch ':' :: ch ':' :: (appendHex 0xffff ++ ch ':' :: octetText (Addr.lowOctets g).1) := by
    have hl : lit "::ffff:" = ch ':' :: ch ':' :: (appendHex 0xffff ++ [ch ':']) := by
      decide
    rw [hl]
    simp
  obtain ⟨d, t, hd, ht⟩ := octetText_cons (Addr.lowOctets g)
  have hc : digitChar d ≠ ch ':' := digitChar_ne_colon (by omega)
  have hp : parseIPv6Groups 8 (appendHex 0xffff ++ ch ':' :: octetText (Addr.lowOctets g).1) []
      (some 0) = some (0xffff :: octetGroups (Addr.lowOctets g).1, some 0, []) := by
    rw [ht, parseIPv6Groups_colon 0xffff hc, ← ht]
    exact parseIPv6Groups_octetText (Addr.lowOctets g) (by decide)
  rw [hs, parseIPv6Body, if_pos (by simp)]
  simp only [List.drop_succ_cons, List.drop_zero]
  rw [if_neg (by simp), hp]
  exact expandEllipsis_run z g [] (0xffff :: octetGroups (Addr.lowOctets g).1) 5 (by decide)
    (groups_of_is4In6 h)

/-- The bytes that texts of addresses without a zone are made of. -/
def IsAddrByte (b : UInt8) : Prop := b = ch '.' ∨ b = ch ':' ∨ ∃ d < 16, b = digitChar d

theorem IsAddrByte.ne (h : IsAddrByte b) : b ≠ ch '%' ∧ b ≠ ch '[' ∧ b ≠ ch ']' := by
  rcases h with rfl | rfl | ⟨d, hd, rfl⟩
  · decide
  · decide
  · revert d
    decide

theorem mem_separated (h : b ∈ separated sep ts) : b = sep ∨ ∃ t ∈ ts, b ∈ t := by
  induction ts using separated.induct with
  | case1 => cases h
  | case2 t => exact .inr ⟨t, List.mem_cons_self, h⟩
  | case3 t u ts ih =>
    rw [separated, List.mem_append, List.mem_cons] at h
    rcases h with h | h | h
    · exact .inr ⟨t, List.mem_cons_self, h⟩
    · exact .inl h
    · rcases ih h with h | ⟨v, hv, hb⟩
      · exact .inl h
      · exact .inr ⟨v, List.mem_cons_of_mem t hv, hb⟩

theorem mem_appendHex (h : b ∈ appendHex x) : ∃ d < 16, b = digitChar d := by
  obtain ⟨d, hd, rfl⟩ := List.mem_map.1 h
  exact ⟨d, hexDigits_lt _ x.toNat_lt hd, rfl⟩

theorem mem_appendDecimal (h : b ∈ appendDecimal x) : ∃ d < 16, b = digitChar d := by
  obtain ⟨d, hd, rfl⟩ := List.mem_map.1 h
  have h10 := decDigits_lt _ x.toNat_lt hd
  exact ⟨d, by omega, rfl⟩

theorem isAddrByte_groupText (h : b ∈ groupText g) : IsAddrByte b := by
  rcases mem_separated h with rfl | ⟨t, ht, hb⟩
  · exact .inr (.inl rfl)
  · obtain ⟨x, _, rfl⟩ := List.mem_map.1 ht
    exact .inr (.inr (mem_appendHex hb))

theorem isAddrByte_octetText (h : b ∈ octetText o) : IsAddrByte b := by
  rcases mem_separated h with rfl | ⟨t, ht, hb⟩
  · exact .inl rfl
  · obtain ⟨x, _, rfl⟩ := List.mem_map.1 ht
    exact .inr (.inr (mem_appendDecimal hb))

theorem isAddrByte_string6 (h : b ∈ string6 g) : IsAddrByte b := by
  rw [string6] at h
  split at h
  · exact isAddrByte_groupText h
  · rw [List.mem_append, List.mem_cons, List.mem_cons] at h
    rcases h with h | rfl | rfl | h
    · exact isAddrByte_groupText h
    · exact .inr (.inl rfl)
    · exact .inr (.inl rfl)
    · exact isAddrByte_groupText h

/-- The text of an address without its zone. -/
def Addr.body : Addr → GoString
  | .zero => []
  | .ip4 o => octetText o.1
  | .ip6 g zone =>
    if (Addr.ip6 g zone).is4In6 then lit "::ffff:" ++ octetText (lowOctets g).1 else string6 g.1

theorem Addr.string_eq (h : a ≠ Addr.zero) : a.string = a.body ++ zoneText a.zone := by
  cases a with
  | zero => exact absurd rfl h
  | ip4 o => exact (List.append_nil _).symm
  | ip6 g zone => rfl

theorem Addr.isAddrByte_body (a : Addr) (h : b ∈ a.body) : IsAddrByte b := by
  cases a with
  | zero => cases h
  | ip4 o => exact isAddrByte_octetText h
  | ip6 g zone =>
    rw [Addr.body] at h
    split at h
    · rw [List.mem_append] at h
      rcases h with h | h
      · have hl : lit "::ffff:" = separated (ch ':') [[], [], appendHex 0xffff, []] := by
          decide
        rw [hl] at h
        rcases mem_separated h with rfl | ⟨t, ht, hb⟩
        · exact .inr (.inl rfl)
        · simp only [List.mem_cons, List.not_mem_nil, or_false] at ht
          rcases ht with rfl | rfl | rfl | rfl
          · cases hb
          · cases hb
          · exact .inr (.inr (mem_appendHex hb))
          · cases hb
      · exact isAddrByte_octetText h
    · exact isAddrByte_string6 h

theorem find?_separator (hp : ∀ b ∈ pre, ∃ d < 16, b = digitChar d)
    (hc : c = ch '.' ∨ c = ch ':' ∨ c = ch '%') :
    (pre ++ c :: post).find? (fun b => b = ch '.' ∨ b = ch ':' ∨ b = ch '%') = some c := by
  have hn : ∀ b ∈ pre, ¬(decide (b = ch '.' ∨ b = ch ':' ∨ b = ch '%')) = true := by
    intro b hb
    obtain ⟨d, hd, rfl⟩ := hp b hb
    clear hb
    revert d
    decide
  rw [List.find?_append, List.find?_eq_none.2 hn, Option.none_or, List.find?_cons,
    decide_eq_true hc]

theorem groupText_colon (x : UInt16) (l : List UInt16) (s : GoString) :
    ∃ post, groupText (x :: l) ++ ch ':' :: s = appendHex x ++ ch ':' :: post := by
  cases l with
  | nil => exact ⟨s, rfl⟩
  | cons y l => exact ⟨_, by rw [groupText_cons_cons, List.append_assoc, List.cons_append]⟩

theorem string6_colon (g : Groups) :
    ∃ pre post, string6 g.1 = pre ++ ch ':' :: post ∧ ∀ b ∈ pre, ∃ d < 16, b = digitChar d := by
  obtain ⟨g, hg⟩ := g
  rw [string6]
  split
  · match g, hg with
    | x :: y :: l, _ => exact ⟨appendHex x, _, rfl, fun b hb => mem_appendHex hb⟩
  · rename_i i l _
    cases g.take i with
    | nil => exact ⟨[], _, rfl, fun b hb => nomatch hb⟩
    | cons x k =>
      obtain ⟨post, hpost⟩ := groupText_colon x k (ch ':' :: groupText (g.drop (i + (l + 1))))
      exact ⟨appendHex x, post, hpost, fun b hb => mem_appendHex hb⟩

theorem Addr.body_colon (g : Groups) (zone : GoString) :
    ∃ pre post, (Addr.ip6 g zone).body = pre ++ ch ':' :: post ∧
      ∀ b ∈ pre, ∃ d < 16, b = digitChar d := by
  rw [Addr.body]
  split
  · exact ⟨[], _, rfl, fun b hb => nomatch hb⟩
  · exact string6_colon g

theorem parseIPv6_zoneText (s zone : GoString) (hs : ch '%' ∉ s) :
    parseIPv6 (s ++ zoneText zone) = parseIPv6Body s zone := by
  rw [zoneText]
  split
  · rename_i hz
    rw [List.append_nil, parseIPv6, if_neg hs, hz]
  · rename_i hz
    have hp : ∀ b ∈ s, decide (b ≠ ch '%') = true := by
      intro b hb
      apply decide_eq_true
      intro he
      exact hs (he ▸ hb)
    rw [parseIPv6, if_pos (by simp), List.takeWhile_append_of_pos hp,
      List.dropWhile_append_of_pos hp]
    simp [hz]

/-- Reading the text of an address gives the address back. -/
theorem parseAddr_string (h : a ≠ Addr.zero) : parseAddr a.string = some a := by
  have hb : ch '%' ∉ a.body := by
    intro hb
    exact (a.isAddrByte_body hb).ne.1 rfl
  rw [Addr.string_eq h]
  cases a with
  | zero => exact absurd rfl h
  | ip4 o =>
    obtain ⟨o, ho⟩ := o
    obtain ⟨a, b, c, d, rfl⟩ := List.length_eq_four.1 ho
    have he : (Addr.ip4 ⟨[a, b, c, d], ho⟩).body ++ zoneText (Addr.ip4 ⟨[a, b, c, d], ho⟩).zone =
        octetText [a, b, c, d] := List.append_nil _
    rw [he, parseAddr, octetText_eq, find?_separator (fun b hb => mem_appendDecimal hb) (.inl rfl),
      ← octetText_eq]
    simp only
    rw [if_pos trivial, parseIPv4, parseIPv4Fields_octetText]
    rfl
  | ip6 g zone =>
    obtain ⟨pre, post, hs, hd⟩ := Addr.body_colon g zone
    have hf : ((Addr.ip6 g zone).body ++ zoneText zone).find?
        (fun b => b = ch '.' ∨ b = ch ':' ∨ b = ch '%') = some (ch ':') := by
      rw [hs, List.append_assoc, List.cons_append]
      exact find?_separator hd (.inr (.inl rfl))
    rw [Addr.zone, parseAddr, hf]
    simp only
    rw [if_neg (by decide), if_pos trivial, parseIPv6_zoneText _ _ hb, Addr.body]
    split
    · rename_i h4
      exact parseIPv6Body_mapped h4 zone
    · exact parseIPv6Body_string6 g zone

end HyruleProxy
