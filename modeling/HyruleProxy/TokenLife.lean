import HyruleProxy.Recovery

namespace HyruleProxy
set_option autoImplicit true

/-- The id whose lease an answered call has removed. -/
def Call.removed : Call → Reply → Option GoString
  | .revoke id _, .done (.ok _) => some id
  | .markExpired id _, .done (.ok _) => some id
  | .markExpiredIfBefore id _ _, .expiry r => if r.removed then some id else none
  | _, _ => none

theorem Call.effect_removed {c : Call} {id : GoString} (h : c.removed r = some id) :
    c.effect L r id = none := by
  unfold Call.removed at h
  split at h
  · cases h
    exact Function.update_self ..
  · cases h
    exact Function.update_self ..
  · split at h
    · rename_i hr
      cases h
      rw [Call.effect, if_pos hr, Function.update_self]
    · cases h
  · cases h

namespace Store

variable {s : Store} {id t : GoString} {l : Lease}

theorem Inv.findByToken_get (hs : s.Inv) (hg : s.get id = some l) :
    s.findByToken l.token = some l := by
  obtain ⟨r, hr, hl⟩ := get_eq_some.1 hg
  obtain ⟨l', hl', _, ht⟩ := hs.indexed.byID hr
  rw [hl] at hl'
  cases hl'
  have hd : s.deref s.byToken[l.token]? = some l := by rw [deref, ht, Option.bind_some, hl]
  simp only [findByToken, hd, if_true]

theorem Inv.findByToken_none (hs : s.Inv) (ht : ∀ id l, s.get id = some l → l.token ≠ t) :
    s.findByToken t = none := by
  cases hr : s.byToken[t]? with
  | none => simp [findByToken, deref, hr]
  | some r =>
    obtain ⟨id, l, hl, he⟩ := hs.indexed.token_live hr
    exact absurd he (ht id l hl)

end Store

namespace Machine

/-- The leases on file. -/
def ledger (m : Machine) : Ledger := fun id => (m.db.rows[id]?).bind Row.unmarshal

/-- The event takes the lease with the token out: a removal answers, or has committed when the
process dies, or `Open` prunes the row. -/
inductive Removes : Machine → Event → GoString → Prop where
  | call {s : Store} {c : Call} {id t : GoString} {l : Lease} (hg : s.get id = some l)
      (ht : l.token = t) (hr : c.removed (c.run s).result = some id) : Removes (.up s) (.call c) t
  | crash {s : Store} {c : Call} {id t : GoString} {l : Lease} {k : Nat} (hg : s.get id = some l)
      (ht : l.token = t) (hr : c.removed (c.run s).result = some id)
      (hd : ((c.run s).dbAt k).rows[id]? = none) : Removes (.up s) (.crash c k) t
  | boot {file : DB} {id t : GoString} {l : Lease} {min max : Int} {now : Time}
      (hg : (down file).ledger id = some l) (ht : l.token = t)
      (hp : l.kept min max now = false) : Removes (.down file) (.boot min max now true) t

/-- The event makes the lease: `Create` answers with it, or has committed it when the process
dies. -/
inductive Creates : Machine → Event → Lease → Prop where
  | call {s : Store} {p : CreateParams} {env : CreateEnv} {l : Lease}
      (hg : s.get p.leaseID = none)
      (hr : ((Call.create p env).run s).result = .lease (.ok l)) :
      Creates (.up s) (.call (.create p env)) l
  | crash {s : Store} {p : CreateParams} {env : CreateEnv} {l : Lease} {k : Nat}
      (hg : s.get p.leaseID = none)
      (hr : ((Call.create p env).run s).result = .lease (.ok l))
      (hd : (((Call.create p env).run s).dbAt k).rows[p.leaseID]? ≠ none) :
      Creates (.up s) (.crash (.create p env) k) l

/-- How an event changes the ledger of a machine: not at all, as its call does, or as `Open`
does. -/
inductive Shift (m : Machine) (e : Event) (L : Ledger) : Ledger → Prop where
  | same : Shift m e L L
  | call {s : Store} {c : Call} (hm : m = .up s) (he : e.call? = some c) :
      Shift m e L (c.run s).store.get
  | boot {file : DB} {min max : Int} {now : Time} (hm : m = .down file)
      (he : e = .boot min max now true) : Shift m e L (L.reopen min max now)

variable {s : Store} {c : Call} {L L' : Ledger} {m : Machine} {e : Event} {es : List Event}
  {ts : List GoString} {id t : GoString} {l : Lease}

theorem Keeps.ledger_eq (h : m.Keeps L) : m.ledger = L := by
  funext id
  rw [ledger, h.db]
  cases hl : L id with
  | none => rfl
  | some l =>
    apply (h.sound.clean hl).unmarshal_valid
    rw [h.sound.own_id hl]
    exact h.sound.valid hl

theorem Keeps.shift (h : m.Keeps L) (hf : Call.Fresh L (e.token.toList ++ ts))
    (hc : Committed L (m.step e).2 L') : Shift m e L L' := by
  cases m with
  | up s =>
    obtain ⟨hs, rfl⟩ := h.up s rfl
    cases e with
    | call c =>
      have hsp := Call.spec_of_fresh hs c hf
      cases hc with
      | acked hc =>
        cases hc
        rw [← hsp.get]
        exact .call rfl rfl
    | crash c k =>
      have hsp := Call.spec_of_fresh hs c hf
      cases hc with
      | present hc =>
        cases hc
        rw [← hsp.get]
        exact .call rfl rfl
      | absent hc =>
        cases hc
        exact .same
    | stop =>
      cases hc
      exact .same
    | boot =>
      cases hc
      exact .same
  | down db =>
    cases e with
    | call =>
      cases hc
      exact .same
    | crash =>
      cases hc
      exact .same
    | stop =>
      cases hc
      exact .same
    | boot min max now commits =>
      cases commits with
      | false =>
        cases hc
        exact .same
      | true =>
        obtain ⟨s, ho, _⟩ := openStore_spec h.sound h.db min max now
        have ho : openStore db min max now true = some s := ho
        simp only [Machine.step, ho] at hc
        cases hc with
        | booted hc =>
          cases hc
          exact .boot rfl rfl

/-- A lease on file stays there, up to its expiry, unless the event removes it. -/
theorem Shift.fate (h : Shift m e L L') (hk : m.Keeps L) (hk' : (m.step e).1.Keeps L')
    (hl : L id = some l) :
    (∃ x, L' id = some { l with expiresAt := x }) ∨ Removes m e l.token := by
  cases h with
  | same => exact .inl ⟨l.expiresAt, hl⟩
  | @call s c hm he =>
    subst hm
    obtain ⟨hs, rfl⟩ := hk.up s rfl
    rcases Call.fate (c := c) hs hl with hg | ⟨d, _, _, hg⟩ | ⟨hg, hc⟩
    · exact .inl ⟨l.expiresAt, hg⟩
    · exact .inl ⟨l.expiresAt + d, hg⟩
    · have hr : c.removed (c.run s).result = some id := by
        rcases hc with ⟨rfl, hr⟩ | ⟨rfl, hr⟩ | ⟨cutoff, rfl, _, hr⟩
        · rw [hr, Call.removed]
        · rw [hr, Call.removed]
        · rw [hr, Call.removed, if_pos rfl]
      cases e with
      | call c' =>
        cases he
        exact .inr (.call hl rfl hr)
      | crash c' k =>
        cases he
        have hd := hk'.db id
        rw [hg] at hd
        exact .inr (.crash hl rfl hr hd)
      | stop => cases he
      | boot => cases he
  | @boot file min max now hm he =>
    subst hm he
    cases hp : l.kept min max now with
    | true => exact .inl ⟨l.expiresAt, Ledger.reopen_eq_some.2 ⟨hl, hp⟩⟩
    | false =>
      rw [← hk.ledger_eq] at hl
      exact .inr (.boot hl rfl hp)

theorem Shift.origin (h : Shift m e L L') (hk : m.Keeps L) (hl : L' id = some l) :
    (∃ l', L id = some l' ∧ l'.token = l.token) ∨ e.token = some l.token := by
  cases h with
  | same => exact .inl ⟨l, hl, rfl⟩
  | @call s c hm he =>
    subst hm
    obtain ⟨hs, rfl⟩ := hk.up s rfl
    rcases (Call.origin hs hl).token with h | h
    · exact .inl h
    · right
      rw [Event.token, he]
      exact h
  | boot => exact .inl ⟨l, (Ledger.reopen_eq_some.1 hl).1, rfl⟩

theorem Removes.gone (h : Removes m e t) (hk : m.Keeps L) (hk' : (m.step e).1.Keeps L')
    (hf : Call.Fresh L (e.token.toList ++ ts)) :
    ∃ id l, L id = some l ∧ l.token = t ∧ L' id = none := by
  cases h with
  | @call s c id _ l hg ht hr =>
    obtain ⟨hs, rfl⟩ := hk.up s rfl
    refine ⟨id, l, hg, ht, ?_⟩
    have hsp := Call.spec_of_fresh hs c hf
    rw [← (hk'.up _ rfl).2, hsp.get]
    exact Call.effect_removed hr
  | @crash s c id _ l k hg ht hr hd =>
    obtain ⟨hs, rfl⟩ := hk.up s rfl
    refine ⟨id, l, hg, ht, ?_⟩
    have hrow := hk'.db id
    rw [Machine.step, Machine.db, hd] at hrow
    exact Option.map_eq_none_iff.1 hrow.symm
  | @boot file id _ l min max now hg ht hp =>
    rw [hk.ledger_eq] at hg
    refine ⟨id, l, hg, ht, ?_⟩
    obtain ⟨s, ho, hop⟩ := openStore_spec hk.sound hk.db min max now
    have ho : openStore file min max now true = some s := ho
    simp only [Machine.step, ho] at hk'
    rw [← (hk'.up s rfl).2, hop.get, Ledger.reopen, hg]
    simp [hp]

theorem Removes.dead (h : Removes m e t) (hk : m.Keeps L) (hk' : (m.step e).1.Keeps L')
    (hf : Call.Fresh L (e.token.toList ++ ts)) (hs : Shift m e L L') :
    t ∉ e.token.toList ++ ts ∧ ∀ i l, L' i = some l → l.token ≠ t := by
  obtain ⟨id, l, hl, rfl, hn⟩ := h.gone hk hk' hf
  have ht := hf id l hl
  refine ⟨ht, ?_⟩
  intro i l' hl' he
  rcases hs.origin hk hl' with ⟨l₀, hl₀, he₀⟩ | hm
  · have hi := hk.sound.token_inj hl₀ hl (he₀.trans he)
    rw [hi, hn] at hl'
    cases hl'
  · apply ht
    rw [hm, he]
    exact List.mem_append_left _ (List.mem_singleton_self _)

theorem Creates.live (h : Creates m e l) (hk : m.Keeps L) (hk' : (m.step e).1.Keeps L')
    (hf : Call.Fresh L (e.token.toList ++ ts)) (hs : Shift m e L L') :
    L' l.leaseID = some l := by
  have hlive : ∃ id, L' id = some l := by
    cases h with
    | @call s p env _ hg hr =>
      obtain ⟨hi, rfl⟩ := hk.up s rfl
      have hsp := Call.spec_of_fresh hi (.create p env) hf
      refine ⟨p.leaseID, ?_⟩
      rw [← (hk'.up _ rfl).2, hsp.get, hr]
      exact Function.update_self ..
    | @crash s p env _ k hg hr hd =>
      obtain ⟨hi, rfl⟩ := hk.up s rfl
      have hsp := Call.spec_of_fresh hi (.create p env) hf
      refine ⟨p.leaseID, ?_⟩
      cases hs with
      | same =>
        -- the file still is the one of before, without a row for the id
        have hrow := hk'.db p.leaseID
        rw [hg] at hrow
        exact absurd hrow hd
      | call hm he =>
        cases hm
        cases he
        rw [hsp.get, hr]
        exact Function.update_self ..
      | boot hm => cases hm
  obtain ⟨id, hl⟩ := hlive
  rw [hk'.sound.own_id hl]
  exact hl

theorem run_append (m : Machine) (es es' : List Event) :
    (m.run (es ++ es')).1 = ((m.run es).1.run es').1 := by
  induction es generalizing m with
  | nil => rfl
  | cons e es ih => exact ih _

theorem Keeps.run_alive (h : m.Keeps L) (hl : L id = some l) (hv : ∀ e ∈ es, e.ValidID)
    (hn : (Event.mints es).Nodup) (hf : Call.Fresh L (Event.mints es))
    (hno : ∀ a e b, es = a ++ e :: b → ¬Removes (m.run a).1 e l.token) :
    ∃ L' x, (m.run es).1.Keeps L' ∧ L' id = some { l with expiresAt := x } := by
  induction es generalizing m L l with
  | nil => exact ⟨L, l.expiresAt, h, hl⟩
  | cons e es ih =>
    rw [Event.mints_cons] at hn hf
    obtain ⟨L₁, hc, hk, hf₁⟩ := h.step (hv e List.mem_cons_self) hn hf
    rcases (h.shift hf hc).fate h hk hl with ⟨x, hx⟩ | hr
    · apply ih hk hx
      · intro e' he'
        exact hv e' (List.mem_cons_of_mem _ he')
      · exact (List.nodup_append.1 hn).2.1
      · exact hf₁
      · rintro a e' b rfl
        exact hno (e :: a) e' b rfl
    · exact absurd hr (hno [] e es rfl)

theorem run_split (es₁ : List Event) (e : Event) (es₂ : List Event)
    (hv : ∀ x ∈ es₁ ++ e :: es₂, x.ValidID) (hn : (Event.mints (es₁ ++ e :: es₂)).Nodup) :
    ∃ L L', ((down DB.empty).run es₁).1.Keeps L ∧
      (((down DB.empty).run es₁).1.step e).1.Keeps L' ∧
      Call.Fresh L (e.token.toList ++ Event.mints es₂) ∧ Call.Fresh L' (Event.mints es₂) ∧
      Shift ((down DB.empty).run es₁).1 e L L' ∧ (Event.mints es₂).Nodup := by
  have hm : Event.mints (es₁ ++ e :: es₂) =
      Event.mints es₁ ++ (e.token.toList ++ Event.mints es₂) := by
    rw [← Event.mints_cons, Event.mints, List.filterMap_append]
    rfl
  rw [hm] at hn
  obtain ⟨L, _, hk, hf⟩ := keeps_empty.run es₁ _
    (fun x hx => hv x (List.mem_append_left _ hx)) hn fun _ _ hl => nomatch hl
  have hn' := (List.nodup_append.1 hn).2.1
  obtain ⟨L', hc, hk', hf'⟩ := hk.step (hv e (by simp)) hn' hf
  exact ⟨L, L', hk, hk', hf, hf', hk.shift hf hc, (List.nodup_append.1 hn').2.1⟩

/-- A lease that was made and not removed since is in the store, up to its expiry. -/
theorem live_after (es₁ : List Event) (e : Event) (es₂ : List Event) (l : Lease)
    (hv : ∀ x ∈ es₁ ++ e :: es₂, x.ValidID) (hn : (Event.mints (es₁ ++ e :: es₂)).Nodup)
    (hc : Creates ((down DB.empty).run es₁).1 e l)
    (hno : ∀ a x b, es₂ = a ++ x :: b →
      ¬Removes ((down DB.empty).run (es₁ ++ e :: a)).1 x l.token)
    (hup : ((down DB.empty).run (es₁ ++ e :: es₂)).1 = .up s) :
    ∃ x, s.Inv ∧ s.get l.leaseID = some { l with expiresAt := x } := by
  obtain ⟨L, L', hk, hk', hf, hf', hs, hn'⟩ := run_split es₁ e es₂ hv hn
  have hl := hc.live hk hk' hf hs
  obtain ⟨L₂, x, hk₂, hl₂⟩ := hk'.run_alive hl
    (fun x hx => hv x (List.mem_append_right _ (List.mem_cons_of_mem _ hx))) hn' hf' (by
      intro a x b he hr
      apply hno a x b he
      rw [run_append]
      exact hr)
  rw [run_append] at hup
  have hup : ((((down DB.empty).run es₁).1.step e).1.run es₂).1 = .up s := hup
  obtain ⟨hi, hg⟩ := hk₂.up s hup
  rw [← hg] at hl₂
  exact ⟨x, hi, hl₂⟩

/-- A removed token stays dead, and until its removal it leads to the lease that was created with
it. -/
theorem token_life (es : List Event) (hv : ∀ e ∈ es, e.ValidID) (hn : (Event.mints es).Nodup) :
    (∀ es₁ e es₂ t, es = es₁ ++ e :: es₂ → Removes ((down DB.empty).run es₁).1 e t →
      ∀ s, ((down DB.empty).run es).1 = .up s → s.findByToken t = none) ∧
    ∀ es₁ e es₂ l, es = es₁ ++ e :: es₂ → Creates ((down DB.empty).run es₁).1 e l →
      (∀ a x b, es₂ = a ++ x :: b →
        ¬Removes ((down DB.empty).run (es₁ ++ e :: a)).1 x l.token) →
      ∀ s, ((down DB.empty).run es).1 = .up s → ∃ x,
        s.findByToken l.token = some { l with expiresAt := x } ∧
        s.get l.leaseID = some { l with expiresAt := x } := by
  constructor
  · rintro es₁ e es₂ t rfl hr s hup
    obtain ⟨L, L', hk, hk', hf, hf', hs, hn'⟩ := run_split es₁ e es₂ hv hn
    obtain ⟨ht, hd⟩ := hr.dead hk hk' hf hs
    have ht₂ : t ∉ Event.mints es₂ := fun hm => ht (List.mem_append_right _ hm)
    obtain ⟨L₂, _, hk₂, hf₂⟩ := hk'.run es₂ [t]
      (fun x hx => hv x (List.mem_append_right _ (List.mem_cons_of_mem _ hx)))
      (List.nodup_append.2 ⟨hn', List.nodup_singleton t, by
        intro a ha b hb
        rw [List.mem_singleton.1 hb]
        rintro rfl
        exact ht₂ ha⟩)
      (by
        intro i l hl hm
        rcases List.mem_append.1 hm with hm | hm
        · exact hf' i l hl hm
        · exact hd i l hl (List.mem_singleton.1 hm))
    rw [run_append] at hup
    have hup : ((((down DB.empty).run es₁).1.step e).1.run es₂).1 = .up s := hup
    obtain ⟨hi, hg⟩ := hk₂.up s hup
    apply hi.findByToken_none
    intro i l hl he
    rw [hg] at hl
    exact hf₂ i l hl (by rw [he]; exact List.mem_singleton_self t)
  · rintro es₁ e es₂ l rfl hc hno s hup
    obtain ⟨x, hi, hl⟩ := live_after es₁ e es₂ l hv hn hc hno hup
    exact ⟨x, hi.findByToken_get hl, hl⟩

/-- A token is revoked and its id used again. -/
def reusedEvents : List Event :=
  [.boot 20000 20001 0 true, .call (Store.sampleCreate (lit "a") 0 5),
    .call (.revoke (lit "a") true), .call (Store.sampleCreate (lit "a") 1 6)]

theorem token_life_reused :
    ∃ s, ((down DB.empty).run reusedEvents).1 = .up s ∧
      s.findByToken (encodeToString (List.replicate 20 0)) = none ∧
      (s.findByToken (encodeToString (List.replicate 20 1))).isSome = true := by
  have hv : ∀ e ∈ reusedEvents, e.ValidID := by
    intro e he p env hp
    simp only [reusedEvents, List.mem_cons, List.not_mem_nil, or_false] at he
    rcases he with rfl | rfl | rfl | rfl <;> cases hp <;> decide +kernel
  have h := token_life reusedEvents hv (by decide +kernel)
  refine ⟨_, rfl, ?_, by decide +kernel⟩
  exact h.1 [.boot 20000 20001 0 true, .call (Store.sampleCreate (lit "a") 0 5)]
    (.call (.revoke (lit "a") true)) [.call (Store.sampleCreate (lit "a") 1 6)] _ rfl
    (@Removes.call _ _ (lit "a") _ _ rfl rfl rfl) _ rfl

/-- A lease under an id that is not UTF-8 is revoked under the id that `Open` has given it. -/
def strayEvents : List Event :=
  [.boot 20000 20001 0 true, .call (Store.sampleCreate [0xff] 0 5), .stop,
    .boot 20000 20001 7 true]

/-- Its row stays on file, and the next start revives the token. -/
theorem revived_token :
    (Event.mints strayEvents).Nodup ∧
      Removes ((down DB.empty).run strayEvents).1 (.call (.revoke (lit "\uFFFD") true))
        (encodeToString (List.replicate 20 0)) ∧
      ∃ s, ((down DB.empty).run (strayEvents ++
          [.call (.revoke (lit "\uFFFD") true), .stop, .boot 20000 20001 8 true])).1 = .up s ∧
        (s.findByToken (encodeToString (List.replicate 20 0))).isSome = true :=
  ⟨by decide +kernel, @Removes.call _ _ (lit "\uFFFD") _ _ rfl rfl rfl, _, rfl, by decide +kernel⟩

theorem not_removes_boot {row : Row} {key : GoString} {min max : Int} {now : Time}
    (hr : row.unmarshal = some l) (hk : l.kept min max now = true) :
    ¬Removes (.down ⟨some ((∅ : GoMap GoString Row).insert key row)⟩)
      (.boot min max now true) t := by
  intro h
  cases h with
  | @boot _ id _ l' _ _ _ hg _ hp =>
    simp only [ledger, Machine.db, DB.rows, Option.getD_some, GoMap.get_insert,
      GoMap.get_empty] at hg
    split at hg
    · rw [Option.bind_some, hr] at hg
      cases hg
      rw [hk] at hp
      cases hp
    · cases hg

end Machine

end HyruleProxy
