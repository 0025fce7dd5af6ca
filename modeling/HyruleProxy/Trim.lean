import Mathlib.Data.List.Infix
import Mathlib.Tactic

namespace HyruleProxy
set_option autoImplicit true

section
variable [DecidableEq α] (ws : List (List α))

/-- Takes texts of a list off the front, at most as many as the first argument says. -/
def trimFront : Nat → List α → List α
  | 0, s => s
  | n + 1, s =>
    match ws.find? fun w => w.isPrefixOf s with
    | none => s
    | some w => trimFront n (s.drop w.length)

def trimBack (s : List α) : List α :=
  (trimFront (ws.map List.reverse) s.length s.reverse).reverse

/-- Takes texts of a list off both ends, first off the front. -/
def trimBoth (s : List α) : List α := trimBack ws (trimFront ws s.length s)

end

/-- A text made of texts of a list. -/
def Blank (ws : List (List α)) (s : List α) : Prop :=
  ∃ ts : List (List α), (∀ t ∈ ts, t ∈ ws) ∧ s = ts.flatten

/-- A text with nothing to take off its ends. -/
structure Trimmed (ws : List (List α)) (s : List α) : Prop where
  front : ∀ w ∈ ws, ¬w <+: s
  back : ∀ w ∈ ws, ¬w <:+ s

/-- Texts that can be told apart from the front. -/
structure PrefixFree (ws : List (List α)) : Prop where
  ne_nil : ∀ w ∈ ws, w ≠ []
  eq : ∀ w ∈ ws, ∀ v ∈ ws, w <+: v → w = v

/-- Texts that moreover begin with letters which occur nowhere inside one of them, as encoded runes
do. -/
structure SelfSynchronising (ws : List (List α)) : Prop extends PrefixFree ws where
  inner : ∀ w ∈ ws, ∀ v ∈ ws, ∀ a ∈ v.head?, a ∉ w.tail

variable {ws : List (List α)} {s t l r : List α}

theorem Blank.reverse (h : Blank ws s) : Blank (ws.map List.reverse) s.reverse := by
  obtain ⟨ts, hts, rfl⟩ := h
  refine ⟨(ts.map List.reverse).reverse, ?_, ?_⟩
  · intro t ht
    obtain ⟨u, hu, rfl⟩ := List.mem_map.1 (List.mem_reverse.1 ht)
    exact List.mem_map_of_mem (hts u hu)
  · rw [List.reverse_flatten]

theorem map_reverse_reverse (ws : List (List α)) : (ws.map List.reverse).map List.reverse = ws := by
  simp

theorem SelfSynchronising.reverse (h : SelfSynchronising ws) :
    PrefixFree (ws.map List.reverse) := by
  refine ⟨?_, ?_⟩
  · intro w hw
    obtain ⟨u, hu, rfl⟩ := List.mem_map.1 hw
    exact fun he => h.ne_nil u hu (List.reverse_eq_nil_iff.1 he)
  · intro w hw v hv hp
    obtain ⟨x, hx, rfl⟩ := List.mem_map.1 hw
    obtain ⟨y, hy, rfl⟩ := List.mem_map.1 hv
    obtain ⟨p, rfl⟩ := List.reverse_prefix.1 hp
    cases p with
    | nil => rfl
    | cons b p =>
      -- The first letter of `x` would occur inside the longer text.
      cases x with
      | nil => exact absurd rfl (h.ne_nil _ hx)
      | cons a x =>
        refine absurd ?_ (h.inner _ hy _ hx a rfl)
        simp

theorem PrefixFree.unique (h : PrefixFree ws) {l' t' : List α} (hl : Blank ws l) (hl' : Blank ws l')
    (ht : ∀ w ∈ ws, ¬w <+: t) (ht' : ∀ w ∈ ws, ¬w <+: t') (he : l ++ t = l' ++ t') : t = t' := by
  obtain ⟨ts, hts, rfl⟩ := hl
  obtain ⟨ts', hts', rfl⟩ := hl'
  induction ts generalizing ts' with
  | nil =>
    cases ts' with
    | nil => exact he
    | cons w' ts' =>
      rw [List.flatten_nil, List.nil_append] at he
      refine absurd ?_ (ht w' (hts' w' List.mem_cons_self))
      rw [he, List.flatten_cons, List.append_assoc]
      exact List.prefix_append _ _
  | cons w ts ih =>
    have hw := hts w List.mem_cons_self
    rw [List.flatten_cons, List.append_assoc] at he
    cases ts' with
    | nil =>
      refine absurd ?_ (ht' w hw)
      rw [List.flatten_nil, List.nil_append] at he
      rw [← he]
      exact List.prefix_append _ _
    | cons w' ts' =>
      have hw' := hts' w' List.mem_cons_self
      rw [List.flatten_cons, List.append_assoc] at he
      have hww : w = w' := by
        rcases List.prefix_or_prefix_of_prefix (List.prefix_append w _)
          (he ▸ List.prefix_append w' _) with hp | hp
        · exact h.eq w hw w' hw' hp
        · exact (h.eq w' hw' w hw hp).symm
      subst hww
      exact ih (fun t ht => hts t (List.mem_cons_of_mem _ ht)) _
        (fun t ht => hts' t (List.mem_cons_of_mem _ ht)) (List.append_cancel_left he)

section
variable [DecidableEq α]

theorem trimFront_spec (hne : ∀ w ∈ ws, w ≠ []) (n : Nat) (s : List α) (hn : s.length ≤ n) :
    ∃ l, Blank ws l ∧ s = l ++ trimFront ws n s ∧ ∀ w ∈ ws, ¬w <+: trimFront ws n s := by
  induction n generalizing s with
  | zero =>
    obtain rfl : s = [] := List.length_eq_zero_iff.1 (by omega)
    exact ⟨[], ⟨[], by simp⟩, rfl, fun w hw hp => hne w hw (List.prefix_nil.1 hp)⟩
  | succ n ih =>
    rw [trimFront]
    cases hf : ws.find? fun w => w.isPrefixOf s with
    | none =>
      refine ⟨[], ⟨[], by simp⟩, rfl, ?_⟩
      intro w hw hp
      exact List.find?_eq_none.1 hf w hw (List.isPrefixOf_iff_prefix.2 hp)
    | some w =>
      have hw := List.mem_of_find?_eq_some hf
      have hp : w.isPrefixOf s = true := by simpa using List.find?_some hf
      obtain ⟨u, rfl⟩ := List.isPrefixOf_iff_prefix.1 hp
      have hlen : 0 < w.length := List.length_pos_iff.2 (hne w hw)
      rw [List.length_append] at hn
      simp only [List.drop_left]
      obtain ⟨l, ⟨ts, hts, rfl⟩, he, ht⟩ := ih u (by omega)
      refine ⟨w ++ ts.flatten, ⟨w :: ts, ?_, rfl⟩, ?_, ht⟩
      · intro t ht
        rcases List.mem_cons.1 ht with rfl | ht
        · exact hw
        · exact hts t ht
      · rw [List.append_assoc, ← he]

theorem PrefixFree.trimFront_eq (h : PrefixFree ws) (hl : Blank ws l) (ht : ∀ w ∈ ws, ¬w <+: t)
    (hn : (l ++ t).length ≤ n) : trimFront ws n (l ++ t) = t := by
  obtain ⟨l', hl', he, ht'⟩ := trimFront_spec h.ne_nil n (l ++ t) hn
  exact (h.unique hl hl' ht ht' he).symm

/-- What trimming leaves is what stands between blanks and has none at its own ends. -/
theorem SelfSynchronising.trimBoth_eq_iff (h : SelfSynchronising ws) :
    trimBoth ws s = t ↔ Trimmed ws t ∧ ∃ l r, Blank ws l ∧ Blank ws r ∧ s = l ++ (t ++ r) := by
  constructor
  · rintro rfl
    obtain ⟨l, hl, he, hfront⟩ := trimFront_spec h.ne_nil s.length s le_rfl
    generalize hu : trimFront ws s.length s = u at he hfront
    obtain ⟨r, hr, he', hback⟩ := trimFront_spec h.reverse.ne_nil u.length u.reverse (by simp)
    have hs : u = trimBack ws u ++ r.reverse := by
      rw [trimBack, ← List.reverse_append, ← he', List.reverse_reverse]
    have hr' := hr.reverse
    rw [map_reverse_reverse] at hr'
    rw [trimBoth, hu]
    refine ⟨⟨?_, ?_⟩, l, r.reverse, hl, hr', by rw [← hs]; exact he⟩
    · intro w hw hp
      rw [hs] at hfront
      exact hfront w hw (hp.trans (List.prefix_append _ _))
    · intro w hw hp
      rw [trimBack, ← List.reverse_prefix, List.reverse_reverse] at hp
      exact hback _ (List.mem_map_of_mem hw) hp
  · rintro ⟨ht, l, r, hl, hr, rfl⟩
    have hback : trimBack ws (t ++ r) = t := by
      have hb : ∀ w ∈ ws.map List.reverse, ¬w <+: t.reverse := by
        intro w hw hp
        obtain ⟨x, hx, rfl⟩ := List.mem_map.1 hw
        exact ht.back x hx (List.reverse_prefix.1 hp)
      rw [trimBack, List.reverse_append, h.reverse.trimFront_eq hr.reverse hb (by simp; omega),
        List.reverse_reverse]
    cases t with
    | nil =>
      obtain ⟨ts, hts, rfl⟩ := hl
      obtain ⟨us, hus, rfl⟩ := hr
      have hlr : Blank ws (ts.flatten ++ us.flatten) :=
        ⟨ts ++ us, by simpa [or_imp, forall_and] using ⟨hts, hus⟩, by simp⟩
      have hf := h.trimFront_eq (t := []) (n := (ts.flatten ++ us.flatten).length) hlr ht.front
        (by simp)
      rw [List.append_nil] at hf
      rw [trimBoth, List.nil_append, hf]
      rfl
    | cons a t =>
      -- A text that began in `t` and ended in `r` would have the first letter of a text inside.
      have hfront : ∀ w ∈ ws, ¬w <+: a :: t ++ r := by
        intro w hw hp
        rcases List.prefix_or_prefix_of_prefix hp (List.prefix_append (a :: t) r)
          with hp' | ⟨r₁, rfl⟩
        · exact ht.front w hw hp'
        · cases r₁ with
          | nil => exact ht.front _ hw (by simp)
          | cons b r₁ =>
            obtain ⟨us, hus, rfl⟩ := hr
            rw [List.prefix_append_right_inj] at hp
            cases us with
            | nil => simp at hp
            | cons v us =>
              have hv := hus v List.mem_cons_self
              cases v with
              | nil => exact h.ne_nil _ hv rfl
              | cons c v =>
                rw [List.flatten_cons, List.cons_append, List.cons_prefix_cons] at hp
                refine h.inner _ hw _ hv c rfl ?_
                rw [← hp.1]
                simp
      rw [trimBoth, h.trimFront_eq hl hfront le_rfl, hback]

end

end HyruleProxy
