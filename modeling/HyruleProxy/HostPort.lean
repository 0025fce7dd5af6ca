import HyruleProxy.Strings

namespace HyruleProxy
set_option autoImplicit true

/-- The text of a `net.AddrError`. -/
def addrErr (addr why : GoString) : GoString :=
  if addr = [] then why else lit "address " ++ addr ++ lit ": " ++ why

/-- The model of `net.SplitHostPort`. -/
def splitHostPort (hostport : GoString) : Except GoString (GoString × GoString) :=
  match cutLast (ch ':') hostport with
  | none => .error (addrErr hostport (lit "missing port in address"))
  | some (pre, port) =>
    if hostport.head? = some (ch '[') then
      match cut (ch ']') hostport with
      | none => .error (addrErr hostport (lit "missing ']' in address"))
      | some (before, after) =>
        if after = [] then .error (addrErr hostport (lit "missing port in address"))
        else if pre.length = before.length + 1 then
          if ch '[' ∈ hostport.tail then
            .error (addrErr hostport (lit "unexpected '[' in address"))
          else if ch ']' ∈ after then
            .error (addrErr hostport (lit "unexpected ']' in address"))
          else .ok (before.tail, port)
        else if after.head? = some (ch ':') then
          .error (addrErr hostport (lit "too many colons in address"))
        else .error (addrErr hostport (lit "missing port in address"))
    else if ch ':' ∈ pre then .error (addrErr hostport (lit "too many colons in address"))
    else if ch '[' ∈ hostport then .error (addrErr hostport (lit "unexpected '[' in address"))
    else if ch ']' ∈ hostport then .error (addrErr hostport (lit "unexpected ']' in address"))
    else .ok (pre, port)

def joinHostPort (host port : GoString) : GoString :=
  if ch ':' ∈ host then ch '[' :: host ++ ch ']' :: ch ':' :: port else host ++ ch ':' :: port

def NoBrackets (s : GoString) : Prop := ch '[' ∉ s ∧ ch ']' ∉ s

instance (s : GoString) : Decidable (NoBrackets s) := inferInstanceAs (Decidable (_ ∧ _))

theorem NoBrackets.of_subset (h : NoBrackets t) (hs : s ⊆ t) : NoBrackets s :=
  ⟨fun hb => h.1 (hs hb), fun hb => h.2 (hs hb)⟩

theorem NoBrackets.trim_eq (h : NoBrackets s) : trim s (lit "[]") = s := by
  apply trim_of_notMem
  intro b hb hm
  have hl : lit "[]" = [ch '[', ch ']'] := by decide
  rw [hl] at hm
  simp only [List.mem_cons, List.not_mem_nil, or_false] at hm
  rcases hm with rfl | rfl
  · exact h.1 hb
  · exact h.2 hb

/-- What a split address is made of. -/
structure Splits (host port : GoString) : Prop where
  hostClean : NoBrackets host
  portClean : NoBrackets port
  colon : ch ':' ∉ port

theorem splits_bracketed (hc : cutLast (ch ':') (ch '[' :: s) = some (pre, port))
    (hb : cut (ch ']') (ch '[' :: s) = some (before, after))
    (hl : pre.length = before.length + 1) (ho : ch '[' ∉ s) (ha : ch ']' ∉ after) :
    Splits before.tail port := by
  obtain ⟨hs, hcolon⟩ := cutLast_eq_some hc
  obtain ⟨hs', hbefore⟩ := cut_eq_some hb
  have he : pre ++ ch ':' :: port = (before ++ [ch ']']) ++ after := by
    rw [← hs, hs']
    simp
  obtain ⟨_, hafter⟩ := List.append_inj he (by simp [hl])
  have hport : port ⊆ after := by
    rw [← hafter]
    exact List.subset_cons_self _ _
  have htail : before.tail ⊆ s := by
    cases before with
    | nil => exact List.nil_subset s
    | cons b before =>
      rw [List.cons_append, List.cons.injEq] at hs'
      rw [hs'.2]
      exact List.subset_append_left _ _
  have hsub : port ⊆ s := by
    cases pre with
    | nil => cases hl
    | cons b pre =>
      rw [List.cons_append, List.cons.injEq] at hs
      rw [hs.2]
      exact fun x hx => List.mem_append_right _ (List.mem_cons_of_mem _ hx)
  exact ⟨⟨fun h => ho (htail h), fun h => hbefore (List.mem_of_mem_tail h)⟩,
    ⟨fun h => ho (hsub h), fun h => ha (hport h)⟩, hcolon⟩

theorem splits_of_splitHostPort (h : splitHostPort s = .ok (host, port)) : Splits host port := by
  rw [splitHostPort] at h
  split at h
  · cases h
  · rename_i pre port' hc
    split at h
    · rename_i hh
      split at h
      · cases h
      · rename_i before after hb
        split at h
        · cases h
        · split at h
          · rename_i hl
            split at h
            · cases h
            · rename_i ho
              split at h
              · cases h
              · rename_i ha
                cases h
                cases s with
                | nil => cases hh
                | cons b s =>
                  rw [List.head?_cons, Option.some.injEq] at hh
                  subst hh
                  exact splits_bracketed hc hb hl ho ha
          · split at h
            · cases h
            · cases h
    · split at h
      · cases h
      · split at h
        · cases h
        · rename_i ho
          split at h
          · cases h
          · rename_i hcl
            cases h
            obtain ⟨hs, hcolon⟩ := cutLast_eq_some hc
            have hn : NoBrackets s := ⟨ho, hcl⟩
            refine ⟨hn.of_subset ?_, hn.of_subset ?_, hcolon⟩
            · rw [hs]
              exact List.subset_append_left _ _
            · rw [hs]
              exact fun x hx => List.mem_append_right _ (List.mem_cons_of_mem _ hx)

theorem cutLast_joined (hp : ch ':' ∉ port) :
    cutLast (ch ':') (ch '[' :: host ++ ch ']' :: ch ':' :: port) =
      some (ch '[' :: host ++ [ch ']'], port) := by
  have he : ch '[' :: host ++ ch ']' :: ch ':' :: port =
      (ch '[' :: host ++ [ch ']']) ++ ch ':' :: port := by simp
  rw [he, cutLast_append hp]

/-- Splitting a joined address gives its parts back. -/
theorem splitHostPort_joinHostPort (h : Splits host port) :
    splitHostPort (joinHostPort host port) = .ok (host, port) := by
  obtain ⟨hh, hp, hc⟩ := h
  rw [joinHostPort]
  split
  · have hb : cut (ch ']') (ch '[' :: host ++ ch ']' :: ch ':' :: port) =
        some (ch '[' :: host, ch ':' :: port) := by
      apply cut_append
      rw [List.mem_cons, not_or]
      exact ⟨by decide, hh.2⟩
    have ho : ch '[' ∉ (ch '[' :: host ++ ch ']' :: ch ':' :: port).tail := by
      rw [List.cons_append, List.tail_cons, List.mem_append, List.mem_cons, List.mem_cons]
      rintro (h | h | h | h)
      · exact hh.1 h
      · exact absurd h (by decide)
      · exact absurd h (by decide)
      · exact hp.1 h
    have ha : ch ']' ∉ ch ':' :: port := by
      rw [List.mem_cons, not_or]
      exact ⟨by decide, hp.2⟩
    rw [splitHostPort, cutLast_joined hc]
    simp only
    rw [if_pos (by rfl), hb]
    simp only
    rw [if_neg (List.cons_ne_nil _ _), if_pos (by simp), if_neg ho, if_neg ha]
    rfl
  · rename_i hn
    have ho : NoBrackets (host ++ ch ':' :: port) := by
      constructor
      · rw [List.mem_append, List.mem_cons]
        rintro (h | h | h)
        · exact hh.1 h
        · exact absurd h (by decide)
        · exact hp.1 h
      · rw [List.mem_append, List.mem_cons]
        rintro (h | h | h)
        · exact hh.2 h
        · exact absurd h (by decide)
        · exact hp.2 h
    have hhd : (host ++ ch ':' :: port).head? ≠ some (ch '[') := by
      intro h
      exact ho.1 (List.mem_of_head? h)
    rw [splitHostPort, cutLast_append hc]
    simp only
    rw [if_neg hhd, if_neg hn, if_neg ho.1, if_neg ho.2]

/-- A bracket inside the host makes the joined address unreadable. -/
theorem splitHostPort_bracket (hc : ch ':' ∈ host) (hp : ch ':' ∉ port)
    (hb : ¬NoBrackets host) : ∃ e, splitHostPort (joinHostPort host port) = .error e := by
  rw [joinHostPort, if_pos hc, splitHostPort, cutLast_joined hp]
  simp only
  rw [if_pos (by rfl)]
  by_cases hcl : ch ']' ∈ host
  · obtain ⟨pre, post, hs, hn⟩ := List.eq_append_cons_of_mem hcl
    have hcut : cut (ch ']') (ch '[' :: host ++ ch ']' :: ch ':' :: port) =
        some (ch '[' :: pre, post ++ ch ']' :: ch ':' :: port) := by
      rw [hs]
      have he : ch '[' :: (pre ++ ch ']' :: post) ++ ch ']' :: ch ':' :: port =
          (ch '[' :: pre) ++ ch ']' :: (post ++ ch ']' :: ch ':' :: port) := by simp
      rw [he]
      apply cut_append
      rw [List.mem_cons, not_or]
      exact ⟨by decide, hn⟩
    rw [hcut]
    simp only
    rw [if_neg (by simp), if_neg (by rw [hs]; simp)]
    split
    · exact ⟨_, rfl⟩
    · exact ⟨_, rfl⟩
  · have ho : ch '[' ∈ host := by
      apply Classical.not_not.1
      intro hn
      exact hb ⟨hn, hcl⟩
    have hcut : cut (ch ']') (ch '[' :: host ++ ch ']' :: ch ':' :: port) =
        some (ch '[' :: host, ch ':' :: port) := by
      apply cut_append
      rw [List.mem_cons, not_or]
      exact ⟨by decide, hcl⟩
    rw [hcut]
    simp only
    rw [if_neg (List.cons_ne_nil _ _), if_pos (by simp),
      if_pos (by rw [List.cons_append, List.tail_cons]; exact List.mem_append_left _ ho)]
    exact ⟨_, rfl⟩

end HyruleProxy
