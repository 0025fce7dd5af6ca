import HyruleProxy.NetURLText

namespace HyruleProxy
set_option autoImplicit true

namespace ServeMux

/-- A segment of a pattern: a text, or a wildcard for any one segment. -/
inductive Segment where
  | literal (text : GoString)
  | wildcard
  deriving DecidableEq

structure Route (β : Type) where
  method : GoString
  pattern : List Segment
  handler : β

/-- What becomes of a request; a handler gets the segments that stand for the wildcards. -/
inductive Outcome (β : Type) where
  | found (handler : β) (values : List GoString)
  | redirect (path : GoString)
  | methodNotAllowed (allow : List GoString)
  | notFound
  deriving DecidableEq

/-- The loop of `path.Clean` over the segments of a rooted path. -/
def cleanSegments (segs : List GoString) : List GoString :=
  segs.foldl (fun out seg =>
    if seg = [] ∨ seg = lit "." then out
    else if seg = lit ".." then out.dropLast
    else out ++ [seg]) []

def joinPath (segs : List GoString) : GoString := ch '/' :: [ch '/'].intercalate segs

/-- The model of `cleanPath`, which keeps a slash at the end. -/
def cleanPath (p : GoString) : GoString :=
  let p := if p.head? = some (ch '/') then p else ch '/' :: p
  let np := joinPath (cleanSegments (p.tail.splitOn (ch '/')))
  if p.getLast? = some (ch '/') ∧ np ≠ [ch '/'] then np ++ [ch '/'] else np

/-- A segment is unescaped if that is possible. -/
def pathUnescape (seg : GoString) : GoString :=
  match unescape .path seg with
  | .ok s => s
  | .error _ => seg

/-- The segments that `firstSegment` cuts off one after the other. A slash at the end is a segment
of its own, written as a slash. -/
def unescapeSegments : List GoString → List GoString
  | [] => []
  | [seg] => if seg = [] then [[ch '/']] else [pathUnescape seg]
  | seg :: segs => pathUnescape seg :: unescapeSegments segs

def segments (path : GoString) : List GoString := unescapeSegments (path.tail.splitOn (ch '/'))

/-- The patterns below a node of the routing tree that go on with a segment. -/
def descend (seg : Segment) (rs : List (List Segment × β)) : List (List Segment × β) :=
  rs.filterMap fun r => if r.1.head? = some seg then some (r.1.tail, r.2) else none

/-- A literal is tried before a wildcard, and a wildcard does not stand for a slash. -/
def matchPath (rs : List (List Segment × β)) : List GoString → Option (β × List GoString)
  | [] => (rs.find? fun r => r.1.isEmpty).map fun r => (r.2, [])
  | seg :: segs =>
    (matchPath (descend (.literal seg) rs) segs).or
      (if seg = [ch '/'] then none
        else (matchPath (descend .wildcard rs) segs).map fun m => (m.1, seg :: m.2))

def forMethod (rs : List (Route β)) (method : GoString) : List (List Segment × β) :=
  (rs.filter fun r => r.method = method).map fun r => (r.pattern, r.handler)

/-- The routes for `GET` serve `HEAD` too. -/
def matchMethod (rs : List (Route β)) (method : GoString) (segs : List GoString) :
    Option (β × List GoString) :=
  (matchPath (forMethod rs method) segs).or
    (if method = lit "HEAD" then matchPath (forMethod rs (lit "GET")) segs else none)

/-- The methods under which a path is known, for the header `Allow`. -/
def matchingMethods (rs : List (Route β)) (segs : List GoString) : List GoString :=
  let ms := ((rs.map Route.method).filter fun m => (matchPath (forMethod rs m) segs).isSome).dedup
  (if lit "GET" ∈ ms then (lit "HEAD" :: ms).dedup else ms).mergeSort
    fun m n => (compare m n).isLE

/-- The model of `ServeMux` for patterns with a method and without a slash at the end, on the
escaped path of a request. The request URI `*` is left out, and a redirect carries the cleaned path,
not the text of its `Location`. -/
def route (rs : List (Route β)) (method path : GoString) : Outcome β :=
  let clean := if method = lit "CONNECT" then path else cleanPath path
  if clean ≠ path then .redirect clean
  else
    match matchMethod rs method (segments path) with
    | some (handler, values) => .found handler values
    | none =>
      match matchingMethods rs (segments path) with
      | [] => .notFound
      | ms => .methodNotAllowed ms

/-- A segment of a path that is left as it is. -/
structure Plain (seg : GoString) : Prop where
  ne_nil : seg ≠ []
  ne_dot : seg ≠ lit "."
  ne_dots : seg ≠ lit ".."
  slash : ch '/' ∉ seg

theorem cleanSegments_plain {segs : List GoString} (h : ∀ seg ∈ segs, Plain seg) :
    cleanSegments segs = segs := by
  have hfold : ∀ out : List GoString, segs.foldl (fun out seg =>
      if seg = [] ∨ seg = lit "." then out
      else if seg = lit ".." then out.dropLast else out ++ [seg]) out = out ++ segs := by
    induction segs with
    | nil => simp
    | cons seg segs ih =>
      intro out
      have hp := h seg List.mem_cons_self
      have hne : ¬(seg = [] ∨ seg = lit ".") := by
        rintro (he | he)
        · exact hp.ne_nil he
        · exact hp.ne_dot he
      rw [List.foldl_cons, if_neg hne, if_neg hp.ne_dots,
        ih fun seg hs => h seg (List.mem_cons_of_mem _ hs)]
      simp
  exact hfold []

theorem splitOn_tail_joinPath {segs : List GoString} (h : ∀ seg ∈ segs, Plain seg)
    (hne : segs ≠ []) : (joinPath segs).tail.splitOn (ch '/') = segs :=
  List.splitOn_intercalate _ (fun seg hs => (h seg hs).slash) hne

theorem getLast?_intercalate {segs : List GoString} (h : ∀ seg ∈ segs, seg ≠ []) (hne : segs ≠ []) :
    ∃ seg ∈ segs, ([ch '/'].intercalate segs).getLast? = seg.getLast? := by
  induction segs with
  | nil => exact absurd rfl hne
  | cons seg segs ih =>
    cases segs with
    | nil => exact ⟨seg, List.mem_cons_self, by rw [List.intercalate_singleton]⟩
    | cons seg' segs =>
      obtain ⟨last, hl, he⟩ := ih (fun s hs => h s (List.mem_cons_of_mem _ hs)) (by simp)
      refine ⟨last, List.mem_cons_of_mem _ hl, ?_⟩
      rw [List.intercalate_cons_cons, List.getLast?_append, he]
      have hlast : last.getLast?.isSome := by
        rw [List.getLast?_isSome]
        exact h last (List.mem_cons_of_mem _ hl)
      exact Option.or_of_isSome hlast

theorem cleanPath_joinPath {segs : List GoString} (h : ∀ seg ∈ segs, Plain seg) (hne : segs ≠ []) :
    cleanPath (joinPath segs) = joinPath segs := by
  have hlast : (joinPath segs).getLast? ≠ some (ch '/') := by
    intro hl
    obtain ⟨seg, hs, he⟩ := getLast?_intercalate (fun seg hs => (h seg hs).ne_nil) hne
    obtain ⟨b, hb⟩ := Option.isSome_iff_exists.1 (List.getLast?_isSome.2 (h seg hs).ne_nil)
    rw [joinPath, List.getLast?_cons, he, hb, Option.getD_some, Option.some_inj] at hl
    rw [hl] at hb
    exact (h seg hs).slash (List.mem_of_getLast? hb)
  have hhead : (joinPath segs).head? = some (ch '/') := rfl
  simp only [cleanPath, hhead, if_true, splitOn_tail_joinPath h hne, cleanSegments_plain h]
  rw [if_neg fun hc => hlast hc.1]

theorem unescapeSegments_cons (h : segs ≠ []) (seg : GoString) :
    unescapeSegments (seg :: segs) = pathUnescape seg :: unescapeSegments segs := by
  cases segs with
  | nil => exact absurd rfl h
  | cons => rfl

theorem unescapeSegments_plain {segs : List GoString} (h : ∀ seg ∈ segs, seg ≠ []) :
    unescapeSegments segs = segs.map pathUnescape := by
  induction segs with
  | nil => rfl
  | cons seg segs ih =>
    have hrest := ih fun s hs => h s (List.mem_cons_of_mem _ hs)
    cases segs with
    | nil => exact if_neg (h seg List.mem_cons_self)
    | cons => rw [unescapeSegments_cons (List.cons_ne_nil _ _), hrest, List.map_cons (l := _ :: _)]

theorem unescapeSegments_slash (segs : List GoString) :
    unescapeSegments (segs ++ [[]]) = segs.map pathUnescape ++ [[ch '/']] := by
  induction segs with
  | nil => rfl
  | cons seg segs ih =>
    rw [List.cons_append, unescapeSegments_cons (by simp), ih, List.map_cons, List.cons_append]

theorem segments_joinPath {segs : List GoString} (h : ∀ seg ∈ segs, Plain seg) (hne : segs ≠ []) :
    segments (joinPath segs) = segs.map pathUnescape := by
  rw [segments, splitOn_tail_joinPath h hne, unescapeSegments_plain fun seg hs => (h seg hs).ne_nil]

/-- Every byte as an escape. -/
def percent (s : GoString) : GoString :=
  s.flatMap fun b => [ch '%', upperHex (b.toNat / 16), upperHex (b.toNat % 16)]

theorem unescape_percent (s : GoString) : unescape .path (percent s) = .ok s := by
  induction s with
  | nil => rfl
  | cons b s ih =>
    have hb : b.toNat < 256 := b.toNat_lt
    have hv : (b.toNat / 16 * 16 + b.toNat % 16).toUInt8 = b := by
      rw [Nat.div_add_mod' b.toNat 16]
      exact UInt8.ofNat_toNat
    have hx := hexDigit_upperHex (show b.toNat / 16 < 16 by omega)
    have hy := hexDigit_upperHex (Nat.mod_lt b.toNat (show 0 < 16 by decide))
    rw [percent, List.flatMap_cons, List.cons_append, List.cons_append, List.cons_append,
      List.nil_append, ← percent, unescape.eq_def]
    simp only [if_true, hx, hy, hv, escapeAllowed, ih]
    rfl

theorem plain_percent (h : s ≠ []) : Plain (percent s) := by
  obtain ⟨b, t, rfl⟩ := List.exists_cons_of_ne_nil h
  have hcons : ∃ u, percent (b :: t) = ch '%' :: u := ⟨_, rfl⟩
  obtain ⟨u, hu⟩ := hcons
  refine ⟨?_, ?_, ?_, ?_⟩
  · rw [hu]
    exact List.cons_ne_nil _ _
  · rw [hu]
    intro he
    exact absurd (List.cons.inj he).1 (by decide)
  · rw [hu]
    intro he
    exact absurd (List.cons.inj he).1 (by decide)
  · intro hm
    obtain ⟨c, _, hc⟩ := List.mem_flatMap.1 hm
    have hc256 : c.toNat < 256 := c.toNat_lt
    simp only [List.mem_cons, List.not_mem_nil, or_false] at hc
    have hslash : ∀ d < 16, ch '/' ≠ upperHex d := by decide
    rcases hc with hc | hc | hc
    · exact absurd hc (by decide)
    · exact hslash _ (by omega) hc
    · exact hslash _ (Nat.mod_lt _ (by decide)) hc

theorem pathUnescape_percent (s : GoString) : pathUnescape (percent s) = s := by
  simp only [pathUnescape, unescape_percent]

section Clean

theorem not_mem_of_mem_splitOn {b : UInt8} {s : GoString} (h : seg ∈ s.splitOn b) : b ∉ seg := by
  induction s generalizing seg with
  | nil =>
    rw [List.splitOn_nil, List.mem_singleton] at h
    simp [h]
  | cons c s ih =>
    rw [List.splitOn_cons_eq_if_modifyHead] at h
    split at h
    · rcases List.mem_cons.1 h with rfl | h
      · exact List.not_mem_nil
      · exact ih h
    · rename_i hc
      obtain ⟨first, rest, hs⟩ := List.exists_cons_of_ne_nil (List.splitOn_ne_nil b s)
      rw [hs, List.modifyHead_cons] at h
      rcases List.mem_cons.1 h with rfl | h
      · intro hb
        rcases List.mem_cons.1 hb with rfl | hb
        · simp at hc
        · exact ih (by rw [hs]; exact List.mem_cons_self) hb
      · exact ih (by rw [hs]; exact List.mem_cons_of_mem _ h)

theorem plain_cleanSegments {segs : List GoString} (h : ∀ seg ∈ segs, ch '/' ∉ seg) :
    ∀ seg ∈ cleanSegments segs, Plain seg := by
  rw [cleanSegments]
  refine List.foldlRecOn (motive := fun out => ∀ seg ∈ out, Plain seg) segs _ ?_ ?_
  · intro seg hs
    cases hs
  · intro out hout seg hseg
    split
    · exact hout
    · rename_i hne
      split
      · intro t ht
        exact hout t (List.dropLast_subset _ ht)
      · rename_i hdots
        intro t ht
        rcases List.mem_append.1 ht with ht | ht
        · exact hout t ht
        · rw [List.mem_singleton.1 ht]
          exact ⟨fun he => hne (.inl he), fun he => hne (.inr he), hdots, h seg hseg⟩

theorem cleanPath_cases (path : GoString) : ∃ segs : List GoString, (∀ seg ∈ segs, Plain seg) ∧
    (cleanPath path = joinPath segs ∨ segs ≠ [] ∧ cleanPath path = joinPath segs ++ [ch '/']) := by
  simp only [cleanPath]
  generalize (if path.head? = some (ch '/') then path else ch '/' :: path) = p
  have hplain : ∀ seg ∈ cleanSegments (p.tail.splitOn (ch '/')), Plain seg :=
    plain_cleanSegments fun seg hs => not_mem_of_mem_splitOn hs
  refine ⟨_, hplain, ?_⟩
  split
  · rename_i hc
    refine .inr ⟨?_, rfl⟩
    intro hnil
    rw [hnil] at hc
    exact hc.2 rfl
  · exact .inl rfl

theorem intercalate_slash {segs : List GoString} (hne : segs ≠ []) :
    [ch '/'].intercalate (segs ++ [[]]) = [ch '/'].intercalate segs ++ [ch '/'] := by
  induction segs with
  | nil => exact absurd rfl hne
  | cons seg segs ih =>
    cases segs with
    | nil => simp
    | cons seg' segs =>
      have hrest := ih (List.cons_ne_nil _ _)
      simp only [List.cons_append, List.intercalate_cons_cons] at hrest ⊢
      rw [hrest]
      simp only [List.append_assoc]

theorem segments_joinPath_slash {segs : List GoString} (h : ∀ seg ∈ segs, Plain seg)
    (hne : segs ≠ []) :
    segments (joinPath segs ++ [ch '/']) = segs.map pathUnescape ++ [[ch '/']] := by
  have hjoin : (joinPath segs ++ [ch '/']).tail = [ch '/'].intercalate (segs ++ [[]]) := by
    rw [intercalate_slash hne]
    rfl
  rw [segments, hjoin, List.splitOn_intercalate _ _ (by simp), unescapeSegments_slash]
  intro seg hs
  rcases List.mem_append.1 hs with hs | hs
  · exact (h seg hs).slash
  · rw [List.mem_singleton.1 hs]
    exact List.not_mem_nil

theorem unescape_ne_nil (h : unescape mode s = .ok t) (hne : s ≠ []) : t ≠ [] := by
  obtain ⟨b, u, rfl⟩ := List.exists_cons_of_ne_nil hne
  have hmap : ∀ {r : Except URLError GoString} {c : UInt8},
      r.map (c :: ·) = .ok t → t ≠ [] := by
    intro r c hr
    cases r with
    | error e => cases hr
    | ok v =>
      cases hr
      exact List.cons_ne_nil _ _
  rw [unescape.eq_def] at h
  simp only at h
  split at h
  · split at h
    · split at h
      · split at h
        · exact hmap h
        · cases h
      · cases h
    · cases h
  · split at h
    · exact hmap h
    · cases h

theorem pathUnescape_ne_nil (h : seg ≠ []) : pathUnescape seg ≠ [] := by
  rw [pathUnescape]
  split
  · rename_i t ht
    exact unescape_ne_nil ht h
  · exact h

theorem ne_nil_of_mem_segments (h : cleanPath path = path) (hs : seg ∈ segments path) :
    seg ≠ [] := by
  have hmap : ∀ {segs : List GoString}, (∀ seg ∈ segs, Plain seg) →
      seg ∈ segs.map pathUnescape → seg ≠ [] := by
    intro segs hplain hm
    obtain ⟨raw, hraw, rfl⟩ := List.mem_map.1 hm
    exact pathUnescape_ne_nil (hplain raw hraw).ne_nil
  obtain ⟨segs, hplain, hc⟩ := cleanPath_cases path
  rw [h] at hc
  rcases hc with rfl | ⟨hne, rfl⟩
  · by_cases hnil : segs = []
    · subst hnil
      rw [show seg = [ch '/'] from List.mem_singleton.1 hs]
      exact List.cons_ne_nil _ _
    · rw [segments_joinPath hplain hnil] at hs
      exact hmap hplain hs
  · rw [segments_joinPath_slash hplain hne] at hs
    rcases List.mem_append.1 hs with hs | hs
    · exact hmap hplain hs
    · rw [List.mem_singleton.1 hs]
      exact List.cons_ne_nil _ _

end Clean

section Sound

/-- The segments that stand for the wildcards of one pattern. -/
def fits : List Segment → List GoString → Option (List GoString)
  | [], [] => some []
  | .literal text :: pattern, seg :: segs => if text = seg then fits pattern segs else none
  | .wildcard :: pattern, seg :: segs =>
    if seg = [ch '/'] then none else (fits pattern segs).map (seg :: ·)
  | _, _ => none

/-- A match of the routing tree is a match of one of its patterns. -/
theorem matchPath_fits {rs : List (List Segment × β)}
    (h : matchPath rs segs = some (handler, values)) :
    ∃ pattern, (pattern, handler) ∈ rs ∧ fits pattern segs = some values := by
  have hdescend : ∀ {seg : Segment} {rs : List (List Segment × β)} {pattern : List Segment},
      (pattern, handler) ∈ descend seg rs → (seg :: pattern, handler) ∈ rs := by
    intro seg rs pattern hm
    obtain ⟨⟨p, b⟩, hr, he⟩ := List.mem_filterMap.1 hm
    split at he
    · rename_i hhead
      cases he
      rwa [show p = seg :: p.tail from List.eq_cons_of_mem_head? hhead] at hr
    · cases he
  induction segs generalizing rs values with
  | nil =>
    obtain ⟨⟨p, b⟩, hf, he⟩ := Option.map_eq_some_iff.1 h
    cases he
    refine ⟨p, List.mem_of_find?_eq_some hf, ?_⟩
    have hnil : p.isEmpty := List.find?_some (p := fun r : List Segment × β => r.1.isEmpty) hf
    rw [List.isEmpty_iff.1 hnil]
    rfl
  | cons seg segs ih =>
    rw [matchPath, Option.or_eq_some_iff] at h
    rcases h with h | ⟨_, h⟩
    · obtain ⟨pattern, hm, hf⟩ := ih h
      exact ⟨_, hdescend hm, (if_pos rfl).trans hf⟩
    · split at h
      · cases h
      · rename_i hslash
        obtain ⟨⟨b, vs⟩, hv, he⟩ := Option.map_eq_some_iff.1 h
        cases he
        obtain ⟨pattern, hm, hf⟩ := ih hv
        exact ⟨_, hdescend hm, by rw [fits, if_neg hslash, hf]; rfl⟩

theorem route_fits {rs : List (Route β)} (h : route rs method path = .found handler values) :
    ∃ r ∈ rs, r.handler = handler ∧ fits r.pattern (segments path) = some values ∧
      (r.method = method ∨ method = lit "HEAD" ∧ r.method = lit "GET") ∧
      (method ≠ lit "CONNECT" → cleanPath path = path) := by
  have hmethod : ∀ {m : GoString} {handler : β} {values : List GoString},
      matchPath (forMethod rs m) (segments path) = some (handler, values) →
      ∃ r ∈ rs, r.handler = handler ∧ fits r.pattern (segments path) = some values ∧
        r.method = m := by
    intro m handler values hm
    obtain ⟨pattern, hp, hf⟩ := matchPath_fits hm
    obtain ⟨r, hr, he⟩ := List.mem_map.1 hp
    cases he
    obtain ⟨hr, hrm⟩ := List.mem_filter.1 hr
    exact ⟨r, hr, rfl, hf, of_decide_eq_true hrm⟩
  have hpath : method ≠ lit "CONNECT" → cleanPath path = path := by
    intro hne
    by_contra hc
    rw [route, if_neg hne, if_pos hc] at h
    cases h
  have hclean : (if method = lit "CONNECT" then path else cleanPath path) = path := by
    split
    · rfl
    · exact hpath ‹_›
  rw [route, hclean, if_neg fun hne => hne rfl] at h
  cases hm : matchMethod rs method (segments path) with
  | none =>
    simp only [hm] at h
    split at h <;> cases h
  | some m =>
    rw [hm] at h
    cases h
    rw [matchMethod, Option.or_eq_some_iff] at hm
    rcases hm with hm | ⟨_, hm⟩
    · obtain ⟨r, hr, hh, hf, hrm⟩ := hmethod hm
      exact ⟨r, hr, hh, hf, .inl hrm, hpath⟩
    · split at hm
      · rename_i hhead
        obtain ⟨r, hr, hh, hf, hrm⟩ := hmethod hm
        exact ⟨r, hr, hh, hf, .inr ⟨hhead, hrm⟩, hpath⟩
      · cases hm

theorem fits_values (h : fits pattern segs = some values) :
    values.length = pattern.count .wildcard ∧ ∀ v ∈ values, v ∈ segs ∧ v ≠ [ch '/'] := by
  fun_induction fits pattern segs generalizing values with
  | case1 => cases h; exact ⟨rfl, by simp⟩
  | case2 pattern seg segs ih =>
    obtain ⟨hlen, hv⟩ := ih h
    refine ⟨by rw [hlen]; simp, ?_⟩
    intro v hm
    exact ⟨List.mem_cons_of_mem _ (hv v hm).1, (hv v hm).2⟩
  | case3 => cases h
  | case4 => cases h
  | case5 pattern seg segs hslash ih =>
    obtain ⟨vs, hvs, rfl⟩ := Option.map_eq_some_iff.1 h
    obtain ⟨hlen, hv⟩ := ih hvs
    refine ⟨by simp [hlen], ?_⟩
    intro v hm
    rcases List.mem_cons.1 hm with rfl | hm
    · exact ⟨List.mem_cons_self, hslash⟩
    · exact ⟨List.mem_cons_of_mem _ (hv v hm).1, (hv v hm).2⟩
  | case6 => cases h

end Sound

end ServeMux

end HyruleProxy
