import HyruleProxy.DaemonRun

namespace HyruleProxy
set_option autoImplicit true

namespace World

variable {w w' : World} {a : Act} {k : Nat} {hd hd' : Handler}

/-- Every connection for which `StartForward` has succeeded presented the token of the lease that
`StartForward` read from the store. -/
def ServesOwnToken (w : World) : Prop :=
  ∀ (n : Nat) (ln : Listener), w.listeners[n]? = some ln →
    ∃ hd : Handler, w.handlers[ln.conn]? = some hd ∧ hd.user = ln.token

/-- When `StartForward` reads the lease, no lease has been created under its id since the
connection authenticated. -/
def NotReborn (w : World) : Act → Prop
  | .lockStart c => ∀ hd : Handler, w.handlers[c]? = some hd →
      hd.leaseID ∉ w.births.drop hd.born
  | _ => True

/-- The same goroutine, maybe further on. -/
def Same (hd hd' : Handler) : Prop :=
  hd'.user = hd.user ∧ hd'.leaseID = hd.leaseID ∧ hd'.born = hd.born

theorem same_forth (hk : w.handlers[k]? = some hd) (hs : Same hd hd') {j : Nat} {u : Handler}
    (hj : w.handlers[j]? = some u) :
    ∃ u', (w.setHandler k hd').handlers[j]? = some u' ∧ Same u u' := by
  rw [handlers_setHandler hk]
  by_cases he : k = j
  · subst he
    rw [hk] at hj
    cases hj
    exact ⟨hd', if_pos rfl, hs⟩
  · exact ⟨u, by rw [if_neg he, hj], rfl, rfl, rfl⟩

theorem same_back (hk : w.handlers[k]? = some hd) (hs : Same hd hd') {j : Nat} {u' : Handler}
    (hj : (w.setHandler k hd').handlers[j]? = some u') :
    ∃ u, w.handlers[j]? = some u ∧ Same u u' := by
  rw [handlers_setHandler hk] at hj
  split at hj
  · subst j
    cases hj
    exact ⟨hd, hk, hs⟩
  · exact ⟨u', hj, rfl, rfl, rfl⟩

theorem Step.handler_forth (h : w.Step a w') (hk : w.handlers[k]? = some hd) :
    ∃ hd', w'.handlers[k]? = some hd' ∧ Same hd hd' := by
  cases h with
  | auth =>
    have hlt := (List.getElem?_eq_some_iff.1 hk).1
    exact ⟨hd, (List.getElem?_append_left hlt).trans hk, rfl, rfl, rfl⟩
  | drop c now u hr =>
    exact same_forth (w := { w with live := _ }) (ready_eq_some.1 hr).1
      (by exact ⟨rfl, rfl, rfl⟩) hk
  | check c now u l hr => exact same_forth (ready_eq_some.1 hr).1 (by exact ⟨rfl, rfl, rfl⟩) hk
  | refuseConn now c id found u hmu hr =>
    exact same_forth (w := w.unlock _ _) (ready_eq_some.1 hr).1 (by exact ⟨rfl, rfl, rfl⟩) hk
  | register now c id found u r hmu hr =>
    exact same_forth (w := w.unlock _ _) (ready_eq_some.1 hr).1 (by exact ⟨rfl, rfl, rfl⟩) hk
  | gone now f c id found u hmu hr =>
    exact same_forth (w := w.unlock _ _) (ready_eq_some.1 hr).1 (by exact ⟨rfl, rfl, rfl⟩) hk
  | leave c u pc hmu hr =>
    exact same_forth (w := w.unlock _ _) (ready_eq_some.1 hr).1 (by exact ⟨rfl, rfl, rfl⟩) hk
  | _ => exact ⟨hd, hk, rfl, rfl, rfl⟩

theorem Step.handler_back (h : w.Step a w') (hk : w'.handlers[k]? = some hd') :
    (∃ hd, w.handlers[k]? = some hd ∧ Same hd hd') ∨
      ∃ user now l, a = .auth user now ∧ authByToken w.store user now = some l ∧
        w'.store = w.store ∧ w'.births = w.births ∧
        hd' = ⟨user, l.leaseID, l.leaseID, w.births.length, none, .authed⟩ := by
  cases h with
  | auth user now l hl =>
    rw [getElem?_push] at hk
    split at hk
    · cases hk
      exact .inr ⟨user, now, l, rfl, hl, rfl, rfl, rfl⟩
    · exact .inl ⟨hd', hk, rfl, rfl, rfl⟩
  | drop c now u hr =>
    exact .inl (same_back (w := { w with live := _ }) (ready_eq_some.1 hr).1
      (by exact ⟨rfl, rfl, rfl⟩) hk)
  | check c now u l hr =>
    exact .inl (same_back (ready_eq_some.1 hr).1 (by exact ⟨rfl, rfl, rfl⟩) hk)
  | refuseConn now c id found u hmu hr =>
    exact .inl (same_back (w := w.unlock _ _) (ready_eq_some.1 hr).1
      (by exact ⟨rfl, rfl, rfl⟩) hk)
  | register now c id found u r hmu hr =>
    exact .inl (same_back (w := w.unlock _ _) (ready_eq_some.1 hr).1
      (by exact ⟨rfl, rfl, rfl⟩) hk)
  | gone now f c id found u hmu hr =>
    exact .inl (same_back (w := w.unlock _ _) (ready_eq_some.1 hr).1
      (by exact ⟨rfl, rfl, rfl⟩) hk)
  | leave c u pc hmu hr =>
    exact .inl (same_back (w := w.unlock _ _) (ready_eq_some.1 hr).1
      (by exact ⟨rfl, rfl, rfl⟩) hk)
  | _ => exact .inl ⟨hd', hk, rfl, rfl, rfl⟩

theorem Step.births (h : w.Step a w') :
    w'.store = w.store ∧ w'.births = w.births ∨
      ∃ c : Call, w'.store = (c.run w.store).store ∧ w'.births = w.births ++ w.birth c := by
  cases h with
  | create => exact .inr ⟨_, rfl, rfl⟩
  | extend => exact .inr ⟨_, rfl, rfl⟩
  | refuse => exact .inr ⟨_, rfl, rfl⟩
  | revoke => exact .inr ⟨_, rfl, rfl⟩
  | mark => exact .inr ⟨_, rfl, rfl⟩
  | _ => exact .inl ⟨rfl, rfl⟩

/-- The token of a handler is the one of its lease, as long as that is not created anew. -/
structure Generation (w : World) : Prop where
  born : ∀ (k : Nat) (hd : Handler), w.handlers[k]? = some hd → hd.born ≤ w.births.length
  token : ∀ (k : Nat) (hd : Handler) (l : Lease), w.handlers[k]? = some hd →
    hd.leaseID ∉ w.births.drop hd.born → w.store.get hd.leaseID = some l → l.token = hd.user

theorem Generation.step (h : w.Generation) (hi : w.Inv) (hst : w.Step a w') : w'.Generation := by
  have hlen : w.births.length ≤ w'.births.length := by
    rcases hst.births with ⟨_, hb⟩ | ⟨c, _, hb⟩
    · rw [hb]
    · rw [hb, List.length_append]
      omega
  constructor
  · intro k hd' hk
    rcases hst.handler_back hk with ⟨hd, hk, _, _, hb⟩ | ⟨user, now, l, _, _, _, hb, rfl⟩
    · rw [hb]
      exact (h.born k hd hk).trans hlen
    · exact hb ▸ le_refl _
  · intro k hd' l hk hnew hl
    rcases hst.handler_back hk with ⟨hd, hk, hu, hid, hb⟩ | ⟨user, now, l', _, hau, hs, _, rfl⟩
    · rw [hb, hid] at hnew
      rw [hid] at hl
      rw [hu]
      rcases hst.births with ⟨hs, hbirths⟩ | ⟨c, hs, hbirths⟩
      · rw [hbirths] at hnew
        rw [hs] at hl
        exact h.token k hd l hk hnew hl
      · rw [hbirths, List.drop_append_of_le_length (h.born k hd hk), List.mem_append,
          not_or] at hnew
        rw [hs] at hl
        rcases Call.origin hi.store hl with ⟨l', hl', he⟩ | ⟨hnone, p, env, rfl, hp, _⟩
        · rw [he]
          exact h.token k hd l' hk hnew.1 hl'
        · refine absurd ?_ hnew.2
          rw [birth, hp, hnone, hl]
          simp
    · rw [hs] at hl
      obtain ⟨hget, ht⟩ := authByToken_get hi.store hau
      rw [hget] at hl
      cases hl
      exact ht

/-- The lease that a `StartForward` in progress has read has the token of its connection. -/
def ReadsOwnToken (w : World) : Prop :=
  ∀ sec l, w.mu = some sec → sec.starts = true → sec.found = some l →
    ∃ hd : Handler, w.handlers[sec.conn]? = some hd ∧ hd.user = l.token

theorem readsOwnToken_step (h : w.ReadsOwnToken) (hg : w.Generation) (hi : w.Inv)
    (hok : w.NotReborn a) (hst : w.Step a w') : w'.ReadsOwnToken := by
  have hforth : ∀ sec l, w.mu = some sec → sec.starts = true → sec.found = some l →
      ∃ hd : Handler, w'.handlers[sec.conn]? = some hd ∧ hd.user = l.token := by
    intro sec l hmu hs hf
    obtain ⟨hd, hk, hu⟩ := h sec l hmu hs hf
    obtain ⟨hd', hk', hu', _⟩ := hst.handler_forth hk
    exact ⟨hd', hk', hu'.trans hu⟩
  cases hst with
  | lockStart c hd hmu hr =>
    rintro sec l ⟨⟩ _ hf
    have hk := (ready_eq_some.1 hr).1
    change w.store.get hd.served = some l at hf
    rw [hi.served c hd hk] at hf
    exact ⟨hd, hk, (hg.token c hd l hk (hok hd hk) hf).symm⟩
  | lockRegister c hd hmu hr =>
    rintro sec l ⟨⟩ hs
    cases hs
  | teardown => exact fun _ _ hmu => nomatch hmu
  | refuseConn => exact fun _ _ hmu => nomatch hmu
  | register => exact fun _ _ hmu => nomatch hmu
  | gone => exact fun _ _ hmu => nomatch hmu
  | fail => exact fun _ _ hmu => nomatch hmu
  | start => exact fun _ _ hmu => nomatch hmu
  | cancel => exact fun _ _ hmu => nomatch hmu
  | leave => exact fun _ _ hmu => nomatch hmu
  | _ => exact hforth

theorem servesOwnToken_step (h : w.ServesOwnToken) (hr : w.ReadsOwnToken) (hst : w.Step a w') :
    w'.ServesOwnToken := by
  have hforth : ∀ (n : Nat) (ln : Listener), w.listeners[n]? = some ln →
      ∃ hd : Handler, w'.handlers[ln.conn]? = some hd ∧ hd.user = ln.token := by
    intro n ln hn
    obtain ⟨hd, hk, hu⟩ := h n ln hn
    obtain ⟨hd', hk', hu', _⟩ := hst.handler_forth hk
    exact ⟨hd', hk', hu'.trans hu⟩
  cases hst with
  | start now f c id found hd m l hmu hready hsf =>
    obtain ⟨hf, _⟩ := Leases.startForward_spec hsf
    intro n ln hn
    rw [getElem?_push] at hn
    split at hn
    · cases hn
      exact hr _ l hmu rfl hf
    · exact hforth n ln hn
  | _ => exact hforth

/-- In every run in which no lease is created anew under the id of a connection between its
authentication and the check of `StartForward`, connections serve their own lease only. -/
theorem servesOwnToken_of_notReborn (h : Reach NotReborn w) : w.ServesOwnToken := by
  have hall : w.Generation ∧ w.ReadsOwnToken ∧ w.ServesOwnToken := by
    refine h.induct (P := fun w => w.Generation ∧ w.ReadsOwnToken ∧ w.ServesOwnToken) ?_ ?_
    · intro s minted _
      exact ⟨⟨(fun _ _ hk => nomatch hk), (fun _ _ _ hk => nomatch hk)⟩,
        (fun _ _ hmu => nomatch hmu), (fun _ _ hn => nomatch hn)⟩
    · intro w a w' hi hp hok hst
      have hs := step_cases hst
      exact ⟨hp.1.step hi hs, readsOwnToken_step hp.2.1 hp.1 hi hok hs,
        servesOwnToken_step hp.2.2 hp.2.1 hs⟩
  exact hall.2.2

def notReborn (w : World) : Act → Bool
  | .lockStart c => w.handlers[c]?.all fun hd => decide (hd.leaseID ∉ w.births.drop hd.born)
  | _ => true

theorem servesOwnToken_after_start :
    ∃ w, Reach NotReborn w ∧ w.listeners.length = 1 ∧ w.ServesOwnToken := by
  have hb : Reach NotReborn (World.boot sampleStore []) := .boot booted_sampleStore
  obtain ⟨w, hr, hl⟩ := hb.of_exec notReborn
    ([sampleLease (lit "a") 0] ++ sampleConnect 0 0 ++ sampleStart 0)
    (fun w => w.listeners.length = 1) (by
      intro w a hi ht
      cases a with
      | lockStart c =>
        intro hd hk
        rw [notReborn, hk] at ht
        exact of_decide_eq_true ht
      | _ => trivial) (by decide)
  exact ⟨w, hr, hl, servesOwnToken_of_notReborn hr⟩

/-- A connection authenticates, its lease is revoked and created again, and the connection is
registered and starts a forward for the new lease with the old token. -/
theorem served_after_rotation : ∃ w, Reach (fun _ _ => True) w ∧ ¬ w.ServesOwnToken := by
  have hb : Reach (fun _ _ => True) (World.boot sampleStore []) := .boot booted_sampleStore
  obtain ⟨w, hr, hln, hu⟩ := hb.of_exec (fun _ _ => true)
    ([sampleLease (lit "a") 0, .auth (sampleToken 0) 1, .revoke (lit "a") true, .teardown 0,
      .finish 0, sampleLease (lit "a") 1, .check 0 1, .lockRegister 0, .register 1] ++
      sampleStart 0)
    (fun w => w.listeners[0]?.map (fun ln => (ln.conn, ln.token)) = some (0, sampleToken 1) ∧
      w.handlers[0]?.map Handler.user = some (sampleToken 0))
    (fun _ _ _ _ => trivial) (by decide)
  refine ⟨w, hr, ?_⟩
  intro hs
  obtain ⟨ln, hln, he⟩ := Option.map_eq_some_iff.1 hln
  obtain ⟨hc, ht⟩ := Prod.mk.inj he
  obtain ⟨hd, hk, hu'⟩ := hs 0 ln hln
  rw [hc] at hk
  rw [hk, Option.map_some, Option.some.injEq, hu', ht] at hu
  exact absurd hu (by decide)

end World

end HyruleProxy
