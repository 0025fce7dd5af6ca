import HyruleProxy.NetURL

namespace HyruleProxy
set_option autoImplicit true

/-- A text and the bytes it stands for once its escapes are decoded. -/
inductive Decodes : GoString → GoString → Prop where
  | nil : Decodes [] []
  | byte (hb : b ≠ ch '%') (h : Decodes s t) : Decodes (b :: s) (b :: t)
  | escape (hx : hexDigit x = some m) (hy : hexDigit y = some n) (h : Decodes s t) :
      Decodes (ch '%' :: x :: y :: s) ((m * 16 + n).toUInt8 :: t)

theorem Decodes.append (h : Decodes s t) (h' : Decodes s' t') : Decodes (s ++ s') (t ++ t') := by
  induction h with
  | nil => exact h'
  | byte hb _ ih => exact .byte hb ih
  | escape hx hy _ ih => exact .escape hx hy ih

theorem Decodes.unique (h : Decodes s t) (h' : Decodes s t') : t = t' := by
  induction h generalizing t' with
  | nil =>
    cases h'
    rfl
  | byte hb _ ih =>
    cases h' with
    | byte _ h' => rw [ih h']
    | escape => exact absurd rfl hb
  | escape hx hy _ ih =>
    cases h' with
    | byte hb => exact absurd rfl hb
    | escape hx' hy' h' =>
      rw [hx, Option.some.injEq] at hx'
      rw [hy, Option.some.injEq] at hy'
      rw [ih h', hx', hy']

theorem decodes_of_unescape (h : unescape mode s = .ok t) : Decodes s t := by
  induction s using unescape.induct mode generalizing t with
  | case1 =>
    cases h
    exact .nil
  | case2 x y s m n hy hx ha ih =>
    rw [unescape, if_pos rfl] at h
    simp only [hx, hy] at h
    rw [if_pos ha] at h
    obtain ⟨u, hu, rfl⟩ := map_eq_ok h
    exact .escape hx hy (ih hu)
  | case3 x y s m n hy hx ha =>
    rw [unescape, if_pos rfl] at h
    simp only [hx, hy] at h
    rw [if_neg ha] at h
    cases h
  | case4 x y s hn =>
    rw [unescape, if_pos rfl] at h
    split at h
    · rename_i m n hx hy
      exact (hn m n hx hy).elim
    · cases h
  | case5 s hn =>
    rw [unescape.eq_def] at h
    simp only [if_true] at h
    cases h
  | case6 b s hb ha ih =>
    rw [unescape.eq_def] at h
    simp only [if_neg hb, if_pos ha] at h
    obtain ⟨u, hu, rfl⟩ := map_eq_ok h
    exact .byte hb (ih hu)
  | case7 b s hb ha =>
    rw [unescape.eq_def] at h
    simp only [if_neg hb, if_neg ha] at h
    cases h

theorem isDigit_iff : isDigit b = true ↔ 48 ≤ b.toNat ∧ b.toNat ≤ 57 := by
  rw [isDigit, Bool.and_eq_true, decide_eq_true_eq, decide_eq_true_eq, UInt8.le_iff_toNat_le,
    UInt8.le_iff_toNat_le]
  rfl

theorem isAlpha_iff : isAlpha b = true ↔
    (97 ≤ b.toNat ∧ b.toNat ≤ 122) ∨ (65 ≤ b.toNat ∧ b.toNat ≤ 90) := by
  simp only [isAlpha, Bool.or_eq_true, Bool.and_eq_true, decide_eq_true_eq, UInt8.le_iff_toNat_le]
  rfl

theorem toNat_upperHex (hd : d < 16) :
    (upperHex d).toNat = if d < 10 then 48 + d else 55 + d := by
  rw [upperHex]
  split
  · exact Nat.mod_eq_of_lt (by omega)
  · exact Nat.mod_eq_of_lt (by omega)

theorem hexDigit_upperHex (hd : d < 16) : hexDigit (upperHex d) = some d := by
  have hdec : (ch '0').toNat = 48 ∧ (ch '9').toNat = 57 := ⟨rfl, rfl⟩
  have hlow : (ch 'a').toNat = 97 := rfl
  have hup : (ch 'A').toNat = 65 ∧ (ch 'F').toNat = 70 := ⟨rfl, rfl⟩
  simp only [hexDigit, UInt8.le_iff_toNat_le, toNat_upperHex hd, hdec, hlow, hup]
  grind

theorem shouldEscape_percent (mode : Encoding) : shouldEscape mode (ch '%') = true := by
  cases mode <;> decide

theorem decodes_escape (mode : Encoding) (s : GoString) : Decodes (escape mode s) s := by
  induction s with
  | nil => exact .nil
  | cons b s ih =>
    rw [escape, List.flatMap_cons, escapeByte]
    split
    · have hb : b.toNat < 256 := b.toNat_lt
      have hv : (b.toNat / 16 * 16 + b.toNat % 16).toUInt8 = b := by
        rw [Nat.div_add_mod' b.toNat 16]
        exact UInt8.ofNat_toNat
      have hd : b.toNat / 16 < 16 := by omega
      have he := Decodes.escape (hexDigit_upperHex hd)
        (hexDigit_upperHex (Nat.mod_lt b.toNat (by decide))) ih
      rw [hv] at he
      exact he
    · rename_i hb
      apply Decodes.byte _ ih
      rintro rfl
      exact hb (shouldEscape_percent mode)

theorem upperHex_range (hd : d < 16) :
    isAlpha (upperHex d) = true ∨ isDigit (upperHex d) = true := by
  rw [isAlpha_iff, isDigit_iff, toNat_upperHex hd]
  split <;> omega

theorem notMem_escape (he : shouldEscape mode b = true) (hp : b ≠ ch '%') : b ∉ escape mode s := by
  have hn : ¬(isAlpha b = true ∨ isDigit b = true) := by
    intro hn
    rw [shouldEscape.eq_def, if_pos (by simpa using hn)] at he
    cases he
  intro hm
  obtain ⟨c, _, hc⟩ := List.mem_flatMap.1 hm
  rw [escapeByte] at hc
  split at hc
  · have hc256 : c.toNat < 256 := c.toNat_lt
    simp only [List.mem_cons, List.not_mem_nil, or_false] at hc
    rcases hc with rfl | rfl | rfl
    · exact hp rfl
    · exact hn (upperHex_range (by omega))
    · exact hn (upperHex_range (Nat.mod_lt c.toNat (by decide)))
  · rename_i hce
    rw [List.mem_singleton] at hc
    rw [← hc] at hce
    exact hce he

theorem splitZone_eq_some (h : splitZone s = some (p, q)) : s = p ++ q := by
  induction s generalizing p with
  | nil => cases h
  | cons b s ih =>
    rw [splitZone] at h
    split at h
    · cases h
      rfl
    · obtain ⟨⟨p', q'⟩, hp, he⟩ := Option.map_eq_some_iff.1 h
      cases he
      rw [ih hp]
      rfl

theorem decodes_of_parseHost (h : parseHost s = .ok host) : Decodes s host := by
  rw [parseHost] at h
  split at h
  · split at h
    · cases h
    · rename_i before colonPort hc
      split at h
      · split at h
        · exact decodes_of_unescape h
        · rename_i literal zone hz
          obtain ⟨host1, h1, h⟩ := bind_eq_ok h
          obtain ⟨host2, h2, h⟩ := bind_eq_ok h
          obtain ⟨host3, h3, h⟩ := bind_eq_ok h
          cases h
          rw [(cutLast_eq_some hc).1, splitZone_eq_some hz]
          exact ((decodes_of_unescape h1).append (decodes_of_unescape h2)).append
            (decodes_of_unescape h3)
      · cases h
  · split at h
    · exact decodes_of_unescape h
    · split at h
      · exact decodes_of_unescape h
      · cases h

theorem parseHost_escape (h : parseHost (escape .host host) = .ok host') : host' = host :=
  (decodes_of_parseHost h).unique (decodes_escape .host host)

theorem cut_getD (b : UInt8) (s : GoString) :
    ((cut b s).getD (s, [])).1 = s.takeWhile (· ≠ b) := by
  induction s with
  | nil => rfl
  | cons c s ih =>
    rw [cut]
    by_cases hc : c = b
    · simp [hc]
    · rw [if_neg hc, List.takeWhile_cons_of_pos (by simpa using hc), ← ih]
      cases cut b s with
      | none => rfl
      | some p => rfl

theorem takeWhile_append_of_notMem (h : b ∉ s) (t : GoString) :
    (s ++ t).takeWhile (· ≠ b) = s ++ t.takeWhile (· ≠ b) := by
  apply List.takeWhile_append_of_pos
  intro c hc
  apply decide_eq_true
  rintro rfl
  exact h hc

theorem splitQuery_fst (rest : GoString) : (splitQuery rest).1 = rest.takeWhile (· ≠ ch '?') := by
  rw [splitQuery]
  split
  · rename_i h
    have hl : lit "?" = [ch '?'] := rfl
    have hs := h.1
    rw [hasSuffix, hl, List.isSuffixOf_iff_suffix] at hs
    obtain ⟨s, rfl⟩ := hs
    have hn : ch '?' ∉ s := by
      have hc := h.2
      rw [List.count_append, List.count_singleton_self] at hc
      exact List.count_eq_zero.1 (by omega)
    rw [takeWhile_append_of_notMem hn]
    simp
  · rw [← cut_getD]
    cases cut (ch '?') rest with
    | none => rfl
    | some p => rfl

theorem splitAuthority_fst (s : GoString) : (splitAuthority s).1 = s.takeWhile (· ≠ ch '/') := by
  rw [splitAuthority, ← cut_getD]
  cases cut (ch '/') s with
  | none => rfl
  | some p => rfl

/-- A lower-case scheme, as the parser leaves it. -/
def ValidScheme (s : GoString) : Prop :=
  s.head?.any isAlpha = true ∧
    (∀ b ∈ s, isAlpha b = true ∨ isDigit b = true ∨ b ∈ lit "+-.") ∧ s.map asciiLower = s

theorem ValidScheme.cons (h : ValidScheme s) : ∃ c t, s = c :: t ∧ isAlpha c = true := by
  cases s with
  | nil => cases h.1
  | cons c t => exact ⟨c, t, rfl, h.1⟩

theorem getSchemeLoop_scheme (hr : seen ≠ [])
    (hs : ∀ b ∈ s, isAlpha b = true ∨ isDigit b = true ∨ b ∈ lit "+-.") :
    getSchemeLoop raw (s ++ ch ':' :: rest) seen = .ok (seen ++ s, rest) := by
  induction s generalizing seen with
  | nil =>
    have hc : ¬(isDigit (ch ':') || decide (ch ':' ∈ lit "+-.")) = true := by decide
    rw [List.nil_append, getSchemeLoop, if_neg (by decide), if_neg hc, if_pos rfl, if_neg hr,
      List.append_nil]
  | cons b s ih =>
    have hs' : ∀ c ∈ s, isAlpha c = true ∨ isDigit c = true ∨ c ∈ lit "+-." :=
      fun c hc => hs c (List.mem_cons_of_mem b hc)
    have hne : seen ++ [b] ≠ [] := by simp
    have he : seen ++ b :: s = seen ++ [b] ++ s := by simp
    rw [List.cons_append, getSchemeLoop, he]
    split
    · exact ih hne hs'
    · rename_i ha
      have hb : (isDigit b || decide (b ∈ lit "+-.")) = true := by
        rcases hs b List.mem_cons_self with h | h | h
        · exact absurd h ha
        · rw [h]
          rfl
        · rw [decide_eq_true h, Bool.or_true]
      rw [if_pos hb]
      exact ih hne hs'

theorem ValidScheme.getScheme (h : ValidScheme s) (rest : GoString) :
    getScheme (s ++ ch ':' :: rest) = .ok (s, rest) := by
  obtain ⟨c, t, rfl, hc⟩ := h.cons
  rw [HyruleProxy.getScheme, List.cons_append, getSchemeLoop, if_pos hc]
  apply getSchemeLoop_scheme (List.cons_ne_nil _ _)
  exact (List.forall_mem_cons.1 h.2.1).2

theorem setPath_eq_ok {u v : URL} (h : u.setPath p = .ok v) :
    v.scheme = u.scheme ∧ v.host = u.host ∧ v.user = u.user := by
  obtain ⟨path, _, h⟩ := bind_eq_ok h
  cases h
  exact ⟨rfl, rfl, rfl⟩

theorem setFragment_eq_ok {u v : URL} (h : u.setFragment f = .ok v) :
    v.scheme = u.scheme ∧ v.host = u.host ∧ v.user = u.user := by
  obtain ⟨fragment, _, h⟩ := bind_eq_ok h
  cases h
  exact ⟨rfl, rfl, rfl⟩

theorem Userinfo.notMem_string (user : Userinfo) (hc : c ∈ [ch '#', ch '?', ch '/', ch '@']) :
    c ∉ user.string := by
  have he : shouldEscape .userPassword c = true ∧ c ≠ ch '%' ∧ c ≠ ch ':' := by
    revert c
    decide +kernel
  intro hm
  rw [Userinfo.string, List.mem_append] at hm
  cases hm with
  | inl hm => exact notMem_escape he.1 he.2.1 hm
  | inr hm =>
    cases hp : user.password with
    | none =>
      rw [hp] at hm
      cases hm
    | some password =>
      rw [hp] at hm
      cases hm with
      | head => exact he.2.2 rfl
      | tail _ hm => exact notMem_escape he.1 he.2.1 hm

theorem URL.authority_ne_nil (u : URL) (hh : u.host ≠ []) : u.authority ≠ [] := by
  obtain ⟨b, t, he⟩ := List.exists_cons_of_ne_nil hh
  have hb : escapeByte .host b ≠ [] := by
    rw [escapeByte]
    split <;> exact List.cons_ne_nil _ _
  rw [authority, he, escape, List.flatMap_cons]
  simp [hb]

theorem URL.notMem_authority (u : URL) (hc : c ∈ [ch '#', ch '?', ch '/']) : c ∉ u.authority := by
  have he : shouldEscape .host c = true ∧ c ≠ ch '%' ∧ c ≠ ch '@' ∧
      c ∈ [ch '#', ch '?', ch '/', ch '@'] := by
    revert c
    decide +kernel
  intro hm
  rw [URL.authority, List.mem_append] at hm
  cases hm with
  | inl hm =>
    cases hu : u.user with
    | none =>
      rw [hu] at hm
      cases hm
    | some user =>
      rw [hu] at hm
      rcases List.mem_append.1 hm with hm | hm
      · exact user.notMem_string he.2.2.2 hm
      · exact he.2.2.1 (List.mem_singleton.1 hm)
  | inr hm => exact notMem_escape he.1 he.2.1 hm

theorem parseAuthority_authority (u : URL)
    (h : parseAuthority u.authority = .ok (user, host)) :
    host = u.host ∧ user.isSome = u.user.isSome := by
  have ha : ch '@' ∉ escape .host u.host := notMem_escape (by decide) (by decide)
  rw [URL.authority] at h
  cases hu : u.user with
  | none =>
    rw [hu, List.nil_append, parseAuthority, cutLast_eq_none.2 ha] at h
    obtain ⟨host', hh, h⟩ := bind_eq_ok h
    cases h
    exact ⟨parseHost_escape hh, rfl⟩
  | some user' =>
    rw [hu] at h
    simp only [List.append_assoc, List.cons_append, List.nil_append] at h
    rw [parseAuthority, cutLast_append ha] at h
    obtain ⟨host', hh, h⟩ := bind_eq_ok h
    obtain ⟨user'', _, h⟩ := bind_eq_ok h
    cases h
    exact ⟨parseHost_escape hh, rfl⟩

/-- What can stand after the authority. -/
def IsTail (t : GoString) : Prop := t = [] ∨ ∃ c s, c ∈ [ch '#', ch '?', ch '/'] ∧ t = c :: s

theorem IsTail.takeWhile (h : IsTail t) :
    ((t.takeWhile (· ≠ ch '#')).takeWhile (· ≠ ch '?')).takeWhile (· ≠ ch '/') = [] := by
  rcases h with rfl | ⟨c, s, hc, rfl⟩
  · rfl
  · simp only [List.mem_cons, List.not_mem_nil, or_false] at hc
    rcases hc with rfl | rfl | rfl
    · simp
    · rw [List.takeWhile_cons_of_pos (by decide)]
      simp
    · rw [List.takeWhile_cons_of_pos (by decide), List.takeWhile_cons_of_pos (by decide)]
      simp

theorem IsTail.append (h : IsTail s) (h' : IsTail t) : IsTail (s ++ t) := by
  rcases h with rfl | ⟨c, s, hc, rfl⟩
  · exact h'
  · exact .inr ⟨c, s ++ t, hc, rfl⟩

theorem URL.isTail_queryFragment (u : URL) : IsTail u.queryFragment := by
  apply IsTail.append
  · split
    · exact .inr ⟨_, _, by simp, rfl⟩
    · exact .inl rfl
  · split
    · exact .inr ⟨_, _, by simp, rfl⟩
    · exact .inl rfl

theorem lit_slash : lit "/" = [ch '/'] := rfl

theorem lit_slashes : lit "//" = [ch '/', ch '/'] := rfl

theorem hasPrefix_slash : hasPrefix s (lit "/") = true ↔ ∃ t, s = ch '/' :: t := by
  rw [hasPrefix, lit_slash, List.isPrefixOf_iff_prefix]
  constructor
  · rintro ⟨t, rfl⟩
    exact ⟨t, rfl⟩
  · rintro ⟨t, rfl⟩
    exact ⟨t, rfl⟩

/-- The scheme with its colon, if there is one. -/
def URL.schemeText (u : URL) : GoString := if u.scheme ≠ [] then u.scheme ++ [ch ':'] else []

theorem URL.string_eq (u : URL) (ho : u.rootless = []) (hh : u.host ≠ []) :
    ∃ t, IsTail t ∧ u.string = u.schemeText ++ ch '/' :: ch '/' :: (u.authority ++ t) := by
  have hf : u.front = u.schemeText ++ ch '/' :: ch '/' :: u.authority := by
    have hnone : ¬(u.scheme = [] ∧ u.host = [] ∧ u.user = none) := fun h => hh h.2.1
    have homit : ¬(u.omitHost = true ∧ u.host = [] ∧ u.user = none) := fun h => hh h.2.1
    have hslashes : u.host ≠ [] ∨ u.path ≠ [] ∨ u.user ≠ none := .inl hh
    rw [URL.front, if_neg hnone, if_neg homit, if_pos hslashes, lit_slashes, schemeText]
    rfl
  have hne : u.front ≠ [] := by
    rw [hf]
    simp
  rw [URL.string, if_neg (fun h => h ho)]
  simp only
  rw [if_neg (fun h => hne h.1)]
  refine ⟨_, IsTail.append (s := if u.escapedPath ≠ [] ∧ hasPrefix u.escapedPath (lit "/") = false ∧
    u.host ≠ [] then ch '/' :: u.escapedPath else u.escapedPath) ?_ u.isTail_queryFragment, ?_⟩
  · split
    · exact .inr ⟨_, _, by simp, rfl⟩
    · rename_i hp
      by_cases he : u.escapedPath = []
      · exact .inl he
      · have hsl : hasPrefix u.escapedPath (lit "/") = true := by
          cases hx : hasPrefix u.escapedPath (lit "/") with
          | true => rfl
          | false => exact absurd ⟨he, hx, hh⟩ hp
        obtain ⟨t, ht⟩ := hasPrefix_slash.1 hsl
        exact .inr ⟨_, t, by simp, ht⟩
  · rw [hf]
    simp

theorem ValidScheme.notMem (h : ValidScheme s) : ch '#' ∉ s := by
  have hn : ¬(isAlpha (ch '#') = true ∨ isDigit (ch '#') = true ∨ ch '#' ∈ lit "+-.") := by
    decide
  intro hm
  exact hn (h.2.1 _ hm)

theorem parseHierarchy_authority (u : URL) (hh : u.host ≠ []) (ht : t.takeWhile (· ≠ ch '/') = [])
    (h : parseHierarchy v (ch '/' :: ch '/' :: (u.authority ++ t)) = .ok w) :
    w.scheme = v.scheme ∧ w.host = u.host ∧ w.user.isSome = u.user.isSome := by
  have hp : hasPrefix (ch '/' :: ch '/' :: (u.authority ++ t)) (lit "//") = true := by
    rw [lit_slashes, hasPrefix, List.isPrefixOf_iff_prefix]
    exact ⟨u.authority ++ t, rfl⟩
  have ha : (splitAuthority (u.authority ++ t)).1 = u.authority := by
    rw [splitAuthority_fst, takeWhile_append_of_notMem (u.notMem_authority (by simp)), ht,
      List.append_nil]
  -- The authority is not empty and has no slash, so there is no third one.
  have hthird : hasPrefix (ch '/' :: ch '/' :: (u.authority ++ t)) (lit "///") = false := by
    obtain ⟨b, s, he⟩ := List.exists_cons_of_ne_nil (u.authority_ne_nil hh)
    have hb := u.notMem_authority (c := ch '/') (by simp)
    have hl : lit "///" = [ch '/', ch '/', ch '/'] := rfl
    rw [he, List.mem_cons, not_or] at hb
    simp [he, hl, hasPrefix, List.isPrefixOf, hb.1]
  rw [parseHierarchy, if_pos ⟨.inr hthird, hp⟩] at h
  simp only [List.drop_succ_cons, List.drop_zero, ha] at h
  obtain ⟨⟨user, host⟩, hu, h⟩ := bind_eq_ok h
  obtain ⟨hscheme, hhost, huser⟩ := setPath_eq_ok h
  obtain ⟨rfl, hsome⟩ := parseAuthority_authority u hu
  exact ⟨hscheme, hhost, by rw [huser]; exact hsome⟩

theorem setPath_rootless {u v : URL} (h : u.setPath p = .ok v) : v.rootless = u.rootless := by
  obtain ⟨path, _, h⟩ := bind_eq_ok h
  cases h
  rfl

theorem parseHierarchy_rootless (h : parseHierarchy u rest = .ok v) : v.rootless = u.rootless := by
  rw [parseHierarchy] at h
  split at h
  · obtain ⟨⟨user, host⟩, _, h⟩ := bind_eq_ok h
    have hr := setPath_rootless h
    exact hr
  · split at h
    · have hr := setPath_rootless h
      exact hr
    · exact setPath_rootless h

theorem parseURL_rootless (h : parseURL raw = .ok u) (hh : u.host ≠ []) : u.rootless = [] := by
  rw [parseURL] at h
  split at h
  · cases h
  · split at h
    · cases h
      rfl
    · obtain ⟨⟨scheme, rest⟩, _, h⟩ := bind_eq_ok h
      simp only at h
      split at h
      · exact parseHierarchy_rootless h
      · split at h
        · cases h
          exact absurd rfl hh
        · split at h
          · cases h
          · exact parseHierarchy_rootless h

theorem urlParse_rootless (h : urlParse raw = .ok u) (hh : u.host ≠ []) : u.rootless = [] := by
  rw [urlParse] at h
  simp only at h
  split at h
  · cases h
  · rename_i v hv
    split at h
    · cases h
      exact parseURL_rootless hv hh
    · split at h
      · cases h
      · rename_i w hw
        cases h
        obtain ⟨fragment, _, hw⟩ := bind_eq_ok hw
        cases hw
        have hr := parseURL_rootless hv hh
        exact hr

/-- A scheme that the parser can leave. -/
def URL.SchemeOK (u : URL) : Prop := u.scheme = [] ∨ ValidScheme u.scheme

theorem URL.SchemeOK.getScheme {u : URL} (hs : u.SchemeOK) (rest : GoString) :
    getScheme (u.schemeText ++ ch '/' :: rest) = .ok (u.scheme, ch '/' :: rest) := by
  rw [schemeText]
  rcases hs with he | hv
  · have hc : ¬(isDigit (ch '/') || decide (ch '/' ∈ lit "+-.")) = true := by decide
    rw [if_neg (not_not.2 he), he, List.nil_append, HyruleProxy.getScheme, getSchemeLoop,
      if_neg (by decide), if_neg hc, if_neg (by decide)]
  · obtain ⟨c, t, he, _⟩ := hv.cons
    rw [if_pos (by rw [he]; exact List.cons_ne_nil c t), List.append_assoc]
    exact hv.getScheme _

theorem URL.SchemeOK.map_lower {u : URL} (hs : u.SchemeOK) :
    u.scheme.map asciiLower = u.scheme := by
  rcases hs with he | hv
  · rw [he]
    rfl
  · exact hv.2.2

theorem URL.SchemeOK.notMem {u : URL} (hs : u.SchemeOK) : ch '#' ∉ u.schemeText := by
  rw [schemeText]
  split
  · rename_i hne
    rw [List.mem_append, not_or]
    exact ⟨(hs.resolve_left hne).notMem, by decide⟩
  · exact List.not_mem_nil

theorem parseURL_authority (u : URL) (hs : u.SchemeOK) (hh : u.host ≠ [])
    (ht : (t.takeWhile (· ≠ ch '?')).takeWhile (· ≠ ch '/') = [])
    (h : parseURL (u.schemeText ++ ch '/' :: ch '/' :: (u.authority ++ t)) = .ok w) :
    w.scheme = u.scheme ∧ w.host = u.host ∧ w.user.isSome = u.user.isSome := by
  have hq : (splitQuery (ch '/' :: ch '/' :: (u.authority ++ t))).1 =
      ch '/' :: ch '/' :: (u.authority ++ t.takeWhile (· ≠ ch '?')) := by
    rw [splitQuery_fst, List.takeWhile_cons_of_pos (by decide),
      List.takeWhile_cons_of_pos (by decide),
      takeWhile_append_of_notMem (u.notMem_authority (by simp))]
  have hp : hasPrefix (ch '/' :: ch '/' :: (u.authority ++ t.takeWhile (· ≠ ch '?')))
      (lit "/") = true := hasPrefix_slash.2 ⟨_, rfl⟩
  rw [parseURL] at h
  split at h
  · cases h
  · split at h
    · rename_i hstar
      have hlen := congrArg List.length hstar
      have hx : (lit "*").length = 1 := by decide
      rw [hx, List.length_append, List.length_cons, List.length_cons] at hlen
      omega
    · rw [hs.getScheme] at h
      obtain ⟨⟨scheme, rest⟩, hg, h⟩ := bind_eq_ok h
      cases hg
      simp only [hq] at h
      rw [if_pos hp] at h
      obtain ⟨hscheme, hrest⟩ := parseHierarchy_authority u hh ht h
      exact ⟨hscheme.trans hs.map_lower, hrest⟩

/-- Parsing the text of a URL with a host keeps its scheme, host and userinfo. -/
theorem urlParse_string (u : URL) (hs : u.SchemeOK) (ho : u.rootless = [])
    (hh : u.host ≠ []) (h : urlParse u.string = .ok v) :
    v.scheme = u.scheme ∧ v.host = u.host ∧ v.user.isSome = u.user.isSome := by
  obtain ⟨t, ht, he⟩ := u.string_eq ho hh
  have hb : ((cut (ch '#') u.string).getD (u.string, [])).1 =
      u.schemeText ++ ch '/' :: ch '/' :: (u.authority ++ t.takeWhile (· ≠ ch '#')) := by
    have hn : ch '#' ∉ u.schemeText ++ ch '/' :: ch '/' :: u.authority := by
      simp only [List.mem_append, List.mem_cons, not_or]
      exact ⟨hs.notMem, by decide, by decide, u.notMem_authority (by simp)⟩
    have hx := takeWhile_append_of_notMem hn t
    rw [cut_getD, he]
    simpa using hx
  rw [urlParse] at h
  simp only [hb] at h
  split at h
  · cases h
  · rename_i w hw
    obtain ⟨hscheme, hhost, huser⟩ := parseURL_authority u hs hh ht.takeWhile hw
    split at h
    · cases h
      exact ⟨hscheme, hhost, huser⟩
    · split at h
      · cases h
      · rename_i w' hf
        cases h
        obtain ⟨hs', hh', hu'⟩ := setFragment_eq_ok hf
        rw [hs', hh', hu']
        exact ⟨hscheme, hhost, huser⟩

section Scheme

/-- The bytes of a scheme. -/
def schemeByte (b : UInt8) : Bool := isAlpha b || (isDigit b || decide (b ∈ lit "+-."))

theorem isUpper_iff {b : UInt8} : (ch 'A' ≤ b ∧ b ≤ ch 'Z') ↔ 65 ≤ b.toNat ∧ b.toNat ≤ 90 := by
  rw [UInt8.le_iff_toNat_le, UInt8.le_iff_toNat_le]
  rfl

theorem asciiLower_of_not_alpha {b : UInt8} (h : isAlpha b = false) : asciiLower b = b := by
  rw [asciiLower, if_neg]
  intro hup
  rw [isAlpha_iff.2 (.inr (isUpper_iff.1 hup))] at h
  cases h

theorem asciiLower_of_alpha {b : UInt8} (h : isAlpha b = true) :
    97 ≤ (asciiLower b).toNat ∧ (asciiLower b).toNat ≤ 122 := by
  rw [isAlpha_iff] at h
  rw [asciiLower]
  split
  · rename_i hup
    have hadd : (b + 32).toNat = (b.toNat + 32) % 256 := UInt8.toNat_add b 32
    rw [isUpper_iff] at hup
    omega
  · rename_i hup
    exact h.resolve_right (mt isUpper_iff.2 hup)

theorem isAlpha_lower (b : UInt8) : isAlpha (asciiLower b) = isAlpha b := by
  cases h : isAlpha b with
  | false => rw [asciiLower_of_not_alpha h, h]
  | true => exact isAlpha_iff.2 (.inl (asciiLower_of_alpha h))

theorem asciiLower_lower (b : UInt8) : asciiLower (asciiLower b) = asciiLower b := by
  cases h : isAlpha b with
  | false => rw [asciiLower_of_not_alpha h, asciiLower_of_not_alpha h]
  | true =>
    have hlow := asciiLower_of_alpha h
    rw [asciiLower, if_neg]
    intro hup
    rw [isUpper_iff] at hup
    omega

theorem schemeByte_lower {b : UInt8} (h : schemeByte b = true) :
    schemeByte (asciiLower b) = true := by
  cases ha : isAlpha b with
  | true => rw [schemeByte, isAlpha_lower, ha, Bool.true_or]
  | false => rwa [asciiLower_of_not_alpha ha]

theorem validScheme_lower {s : GoString} (hne : s.head?.any isAlpha = true)
    (hs : ∀ b ∈ s, schemeByte b = true) : ValidScheme (s.map asciiLower) := by
  refine ⟨?_, ?_, ?_⟩
  · cases s with
    | nil => cases hne
    | cons c t => exact (isAlpha_lower c).trans hne
  · intro b hb
    obtain ⟨c, hc, rfl⟩ := List.mem_map.1 hb
    have hbyte := schemeByte_lower (hs c hc)
    simpa only [schemeByte, Bool.or_eq_true, decide_eq_true_eq] using hbyte
  · rw [List.map_map]
    exact List.map_congr_left fun b _ => asciiLower_lower b

theorem getSchemeLoop_eq_ok {read scheme : GoString}
    (hhead : read ≠ [] → read.head?.any isAlpha = true)
    (hread : ∀ b ∈ read, schemeByte b = true)
    (h : getSchemeLoop raw s read = .ok (scheme, rest)) :
    scheme = [] ∨ scheme.head?.any isAlpha = true ∧ ∀ b ∈ scheme, schemeByte b = true := by
  induction s generalizing read with
  | nil =>
    cases h
    exact .inl rfl
  | cons c s ih =>
    have hnext : schemeByte c = true → (read = [] → isAlpha c = true) →
        getSchemeLoop raw s (read ++ [c]) = .ok (scheme, rest) →
        scheme = [] ∨ scheme.head?.any isAlpha = true ∧ ∀ b ∈ scheme, schemeByte b = true := by
      intro hc hfirst h
      refine ih ?_ ?_ h
      · intro _
        cases read with
        | nil => exact hfirst rfl
        | cons d read => exact hhead (List.cons_ne_nil d read)
      · intro b hb
        rcases List.mem_append.1 hb with hb | hb
        · exact hread b hb
        · rw [List.mem_singleton.1 hb]
          exact hc
    rw [getSchemeLoop] at h
    split at h
    · rename_i ha
      exact hnext (by rw [schemeByte, ha, Bool.true_or]) (fun _ => ha) h
    · split at h
      · rename_i hd
        split at h
        · cases h
          exact .inl rfl
        · rename_i hne
          exact hnext (by rw [schemeByte, hd, Bool.or_true]) (fun he => absurd he hne) h
      · split at h
        · split at h
          · cases h
          · rename_i hne
            cases h
            exact .inr ⟨hhead hne, hread⟩
        · cases h
          exact .inl rfl

theorem parseHierarchy_scheme (h : parseHierarchy u rest = .ok v) : v.scheme = u.scheme := by
  rw [parseHierarchy] at h
  split at h
  · obtain ⟨⟨user, host⟩, _, h⟩ := bind_eq_ok h
    exact (setPath_eq_ok h).1
  · split at h
    · exact (setPath_eq_ok h).1
    · exact (setPath_eq_ok h).1

theorem parseURL_schemeOK (h : parseURL raw = .ok u) : u.SchemeOK := by
  rw [parseURL] at h
  split at h
  · cases h
  · split at h
    · cases h
      exact .inl rfl
    · obtain ⟨⟨scheme, rest⟩, hg, h⟩ := bind_eq_ok h
      have hscheme := getSchemeLoop_eq_ok (fun hne => absurd rfl hne)
        (fun _ hb => absurd hb List.not_mem_nil) hg
      have hu : u.scheme = scheme.map asciiLower := by
        simp only at h
        split at h
        · exact parseHierarchy_scheme h
        · split at h
          · cases h
            rfl
          · split at h
            · cases h
            · exact parseHierarchy_scheme h
      rw [URL.SchemeOK, hu]
      rcases hscheme with rfl | ⟨hne, hs⟩
      · exact .inl rfl
      · exact .inr (validScheme_lower hne hs)

theorem urlParse_schemeOK (h : urlParse raw = .ok u) : u.SchemeOK := by
  rw [urlParse] at h
  simp only at h
  split at h
  · cases h
  · rename_i v hv
    have hok := parseURL_schemeOK hv
    split at h
    · cases h
      exact hok
    · split at h
      · cases h
      · rename_i w hf
        cases h
        rw [URL.SchemeOK, (setFragment_eq_ok hf).1]
        exact hok

end Scheme

end HyruleProxy
