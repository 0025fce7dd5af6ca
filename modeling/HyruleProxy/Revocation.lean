import HyruleProxy.DaemonRun

namespace HyruleProxy
set_option autoImplicit true

namespace World

variable {w w' : World} {a : Act} {h : Handle} {id token : GoString} {k : Nat} {t : Task}

/-- A listener that `StartForward` has bound, or a connection that has passed `RegisterConn`, for
the lease with this id and token. -/
def OfLease (w : World) (id token : GoString) : Handle → Prop
  | .listener n => ∃ ln : Listener, w.listeners[n]? = some ln ∧ ln.lease = id ∧ ln.token = token
  | .conn c => ∃ hd : Handler, w.handlers[c]? = some hd ∧ hd.leaseID = id ∧
      hd.registered = some token

/-- Once `RevokeLease` has returned, nothing of the lease is open. -/
def RevocationComplete (w : World) : Prop :=
  ∀ id token, .returned id token ∈ w.tasks → ∀ h ∈ w.live, ¬ w.OfLease id token h

/-- When `RevokeLease` returns, no goroutine has detached something of the lease that it has not
closed yet. -/
def ReturnsLast (w : World) : Act → Prop
  | .finish k => ∀ id token, w.tasks[k]? = some (.revoked id token) →
      ∀ h ∈ w.live, w.OfLease id token h → ¬ w.Owed h
  | _ => True

/-- The token has been minted and no lease of the store has it: it never comes back. -/
structure Dead (w : World) (token : GoString) : Prop where
  minted : token ∈ w.minted
  store : ∀ id l, w.store.get id = some l → l.token ≠ token

/-- Nor does a section hold a lease with the token. -/
structure Past (w : World) (token : GoString) : Prop extends w.Dead token where
  found : ∀ sec l, w.mu = some sec → sec.found = some l → l.token ≠ token

/-- What is open of the lease is about to be closed. -/
structure Drained (w : World) (id token : GoString) : Prop extends w.Past token where
  owed : ∀ h ∈ w.live, w.OfLease id token h → w.Owed h

/-- Nothing of the lease is open. -/
structure Closed (w : World) (id token : GoString) : Prop extends w.Past token where
  closed : ∀ h ∈ w.live, ¬ w.OfLease id token h

theorem Dead.calls (hd : w.Dead token) (hi : w.store.Inv) (c : Call)
    (ht : ∀ t, c.token = some t → t ∉ w.minted) : (w.calls c).Dead token := by
  refine ⟨List.mem_append_right _ hd.minted, ?_⟩
  intro id l hl
  rcases (Call.origin hi hl).token with ⟨l', hl', he⟩ | hm
  · rw [← he]
    exact hd.store id l' hl'
  · rintro rfl
    exact ht _ hm hd.minted

theorem Dead.step (hd : w.Dead token) (hi : w.Inv) (hst : w.Step a w') : w'.Dead token := by
  cases hst with
  | create p env ht => exact hd.calls hi.store _ ht
  | extend => exact hd.calls hi.store _ fun _ ht => nomatch ht
  | refuse => exact hd.calls hi.store _ fun _ ht => nomatch ht
  | revoke id commits l =>
    exact Dead.calls (w := { w with tasks := w.tasks ++ [Task.revoking id l.token] }) ⟨hd.1, hd.2⟩
      hi.store _ fun _ ht => nomatch ht
  | mark k i commits id cutoff todo =>
    exact Dead.calls (w := w.setTask k _) ⟨hd.1, hd.2⟩ hi.store _ fun _ ht => nomatch ht
  | _ => exact ⟨hd.1, hd.2⟩

theorem Past.step (hp : w.Past token) (hi : w.Inv) (hst : w.Step a w') : w'.Past token := by
  have hd := hp.toDead.step hi hst
  refine ⟨hd, ?_⟩
  cases hst with
  | lockRegister c hd' =>
    rintro sec l ⟨⟩ hl
    exact hp.store _ l hl
  | lockStart c hd' =>
    rintro sec l ⟨⟩ hl
    exact hp.store _ l hl
  | teardown => exact fun _ _ hmu => nomatch hmu
  | refuseConn => exact fun _ _ hmu => nomatch hmu
  | register => exact fun _ _ hmu => nomatch hmu
  | gone => exact fun _ _ hmu => nomatch hmu
  | fail => exact fun _ _ hmu => nomatch hmu
  | start => exact fun _ _ hmu => nomatch hmu
  | cancel => exact fun _ _ hmu => nomatch hmu
  | leave => exact fun _ _ hmu => nomatch hmu
  | _ => exact hp.found

theorem OfLease.of_setHandler (ho : (w.setHandler k hd').OfLease id token h)
    (hk : w.handlers[k]? = some hd) (hl : hd'.leaseID = hd.leaseID)
    (hr : hd'.registered = hd.registered) : w.OfLease id token h := by
  cases h with
  | listener n => exact ho
  | conn c =>
    obtain ⟨u, hu, hid, ht⟩ := ho
    rw [handlers_setHandler hk] at hu
    split at hu
    · subst c
      cases hu
      exact ⟨hd, hk, hl.symm.trans hid, hr.symm.trans ht⟩
    · exact ⟨u, hu, hid, ht⟩

/-- After its `Teardown` a lease gets no new listener and no new connection. -/
theorem Past.open_of_step (hp : w.Past token) (hst : w.Step a w') (hl : h ∈ w'.live)
    (ho : w'.OfLease id token h) : h ∈ w.live ∧ w.OfLease id token h := by
  cases hst with
  | close => exact ⟨Finset.mem_of_mem_erase hl, ho⟩
  | hangup => exact ⟨Finset.mem_of_mem_erase hl, ho⟩
  | auth user now l =>
    rcases Finset.mem_insert.1 hl with rfl | hl
    · obtain ⟨hd, hd', _, ht⟩ := ho
      rw [getElem?_push, if_pos rfl] at hd'
      cases hd'
      cases ht
    · refine ⟨hl, ?_⟩
      cases h with
      | listener n => exact ho
      | conn c =>
        obtain ⟨hd, hd', hid, ht⟩ := ho
        rw [getElem?_push] at hd'
        split at hd'
        · cases hd'
          cases ht
        · exact ⟨hd, hd', hid, ht⟩
  | drop c now hd hr =>
    exact ⟨Finset.mem_of_mem_erase hl,
      OfLease.of_setHandler (w := { w with live := _ }) ho (ready_eq_some.1 hr).1 rfl rfl⟩
  | check c now hd l hr => exact ⟨hl, ho.of_setHandler (ready_eq_some.1 hr).1 rfl rfl⟩
  | refuseConn now c id found hd hmu hr =>
    exact ⟨hl, ho.of_setHandler (w := w.unlock _ _) (ready_eq_some.1 hr).1 rfl rfl⟩
  | gone now f c id found hd hmu hr =>
    exact ⟨hl, ho.of_setHandler (w := w.unlock _ _) (ready_eq_some.1 hr).1 rfl rfl⟩
  | leave c hd pc hmu hr =>
    exact ⟨hl, ho.of_setHandler (w := w.unlock _ _) (ready_eq_some.1 hr).1 rfl rfl⟩
  | register now c i found hd r hmu hr hreg =>
    refine ⟨hl, ?_⟩
    have hk := (ready_eq_some.1 hr).1
    cases h with
    | listener n => exact ho
    | conn c' =>
      obtain ⟨u, hu, hid, ht⟩ := ho
      rw [handlers_setHandler (w := w.unlock _ _) hk] at hu
      split at hu
      · cases hu
        obtain ⟨l, hl', ht⟩ := Option.map_eq_some_iff.1 ht
        exact absurd ht (hp.found _ l hmu hl')
      · exact ⟨u, hu, hid, ht⟩
  | start now f c i found hd m l hmu hr hsf =>
    obtain ⟨hf, _⟩ := Leases.startForward_spec hsf
    cases h with
    | conn c' => exact ⟨(Finset.mem_insert.1 hl).resolve_left nofun, ho⟩
    | listener n =>
      obtain ⟨ln, hln, hid, ht⟩ := ho
      rw [getElem?_push] at hln
      split at hln
      · cases hln
        exact absurd ht (hp.found _ l hmu hf)
      · rename_i hne
        refine ⟨(Finset.mem_insert.1 hl).resolve_left ?_, ln, hln, hid, ht⟩
        rintro ⟨⟩
        exact hne rfl
  | _ => exact ⟨hl, ho⟩

/-- What a goroutine owes it closes, and nothing else makes it forget. -/
theorem Owed.step (ho : w.Owed h) (hst : w.Step a w') (hl : h ∈ w'.live) : w'.Owed h := by
  cases hst with
  | teardown k t id hmu hk hn => exact Owed.owes (w := { w with leases := _, mu := none }) ho hn _
  | refuseConn now c id found hd hmu hr =>
    exact Owed.owes (w := { w with leases := _, mu := none }) ho (ready_eq_some.1 hr).2.1 _
  | register now c id found hd r hmu hr =>
    exact Owed.owes (w := { w with leases := _, mu := none }) ho (ready_eq_some.1 hr).2.1 _
  | gone now f c id found hd hmu hr =>
    exact Owed.owes (w := { w with leases := _, mu := none }) ho (ready_eq_some.1 hr).2.1 _
  | cancel c hd hmu hr =>
    exact Owed.owes (w := { w with leases := _, mu := none }) ho (ready_eq_some.1 hr).2.1 _
  | leave c hd pc hmu hr =>
    exact Owed.owes (w := { w with leases := _, mu := none }) ho (ready_eq_some.1 hr).2.1 _
  | close ag x hs he =>
    obtain ⟨b, hb⟩ := ho
    refine ⟨b, ?_⟩
    rw [owes_owed]
    split
    · rename_i hbe
      rw [hbe, he] at hb
      exact (List.mem_cons.1 hb).resolve_left (Finset.ne_of_mem_erase hl)
    · exact hb
  | _ => exact ho

theorem Drained.step (hd : w.Drained id token) (hi : w.Inv) (hst : w.Step a w') :
    w'.Drained id token := by
  refine ⟨hd.toPast.step hi hst, ?_⟩
  intro h hl ho
  obtain ⟨hl₀, ho₀⟩ := hd.toPast.open_of_step hst hl ho
  exact (hd.owed h hl₀ ho₀).step hst hl

theorem Closed.step (hc : w.Closed id token) (hi : w.Inv) (hst : w.Step a w') :
    w'.Closed id token := by
  refine ⟨hc.toPast.step hi hst, ?_⟩
  intro h hl ho
  obtain ⟨hl₀, ho₀⟩ := hc.toPast.open_of_step hst hl ho
  exact hc.closed h hl₀ ho₀

theorem dead_of_revoke (hi : w.Inv) {l : Lease} {commits : Bool} (hl : w.store.get id = some l)
    (hr : (w.store.revoke id commits).result = .ok ()) :
    (w.calls (.revoke id commits)).Dead l.token := by
  refine ⟨hi.minted id l hl, ?_⟩
  intro i l' hl' ht
  have hget : (Call.run w.store (.revoke id commits)).store.get =
      Function.update w.store.get id none := by
    rw [(Call.spec_revoke hi.store id commits).get]
    simp only [Call.run, Outcome.map, hr, Call.effect]
  change (Call.run w.store (.revoke id commits)).store.get i = some l' at hl'
  rw [hget, Function.update_apply] at hl'
  split at hl'
  · cases hl'
  · rename_i hne
    exact hne (hi.store.indexed.token_inj hl' hl ht)

theorem drained_of_teardown (hi : w.Inv) (hd : w.Dead token)
    (ho : w.owed (.task k) = []) (t : Task) :
    ((w.unlock (.task k) (w.leases.teardown id)).setTask k t).Drained id token := by
  refine ⟨⟨⟨hd.1, hd.2⟩, fun _ _ h => nomatch h⟩, ?_⟩
  intro h hl hof
  have hkept : w.Kept h := by
    cases h with
    | listener n => exact hi.listener n hl
    | conn c =>
      obtain ⟨hd, hk, _, ht⟩ := hof
      exact hi.conn c hd hl hk (by rw [ht]; exact Option.some_ne_none _)
  rcases hkept with ⟨i, st, hst, hm⟩ | how
  · have hid : i = id := by
      rcases Leases.mem_handles.1 hm with ⟨n, hn, rfl⟩ | rfl
      · obtain ⟨ln, hln, hown⟩ := hi.bound i st n hst hn
        obtain ⟨ln', hln', hid, _⟩ := hof
        change w.listeners[n]? = some ln' at hln'
        rw [hln] at hln'
        cases hln'
        exact hown.symm.trans hid
      · obtain ⟨u, hu, hown⟩ := hi.own i st hst
        obtain ⟨u', hu', hid, _⟩ := hof
        change w.handlers[st.conn]? = some u' at hu'
        rw [hu] at hu'
        cases hu'
        exact hown.symm.trans hid
    subst hid
    have hr : w.leases.teardown i = (w.leases.erase i, st.handles) := by
      simp only [Leases.teardown, hst]
    have hh : h ∈ (w.leases.teardown i).2 := by
      rw [hr]
      exact hm
    exact owed_owes _ _ hh
  · exact Owed.owes (w := { w with leases := _, mu := none }) how ho _

/-- How far the revocation of a lease has come. -/
def Meets (w : World) : Task → Prop
  | .revoking _ token => w.Dead token
  | .revoked id token => w.Drained id token
  | .returned id token => w.Closed id token
  | _ => True

theorem Meets.step (hm : w.Meets t) (hi : w.Inv) (hst : w.Step a w') : w'.Meets t := by
  cases t with
  | revoking id token => exact Dead.step hm hi hst
  | revoked id token => exact Drained.step hm hi hst
  | returned id token => exact Closed.step hm hi hst
  | sweeping => trivial
  | reaping => trivial

theorem meets_step (hm : ∀ t ∈ w.tasks, w.Meets t) (hi : w.Inv) (hok : w.ReturnsLast a)
    (hst : w.Step a w') : ∀ t ∈ w'.tasks, w'.Meets t := by
  have hold : ∀ t ∈ w.tasks, w'.Meets t := fun t ht => (hm t ht).step hi hst
  intro t ht
  cases hst with
  | revoke id commits l hl hr =>
    rcases List.mem_append.1 ht with ht | ht
    · exact hold t ht
    · cases List.mem_singleton.1 ht
      have hd := dead_of_revoke hi hl hr
      exact ⟨hd.1, hd.2⟩
  | sweep cutoff todo =>
    rcases List.mem_append.1 ht with ht | ht
    · exact hold t ht
    · cases List.mem_singleton.1 ht
      trivial
  | mark k i commits id cutoff todo hk =>
    rcases List.mem_or_eq_of_mem_set ht with ht | rfl
    · exact hold t ht
    · split <;> trivial
  | teardown k t₀ id hmu hk ho htear =>
    rcases List.mem_or_eq_of_mem_set ht with ht | rfl
    · exact hold t ht
    · have h₀ := hm t₀ (List.mem_of_getElem? hk)
      cases t₀ with
      | revoking id' token =>
        cases htear
        exact drained_of_teardown hi h₀ ho _
      | reaping => trivial
      | revoked => cases htear
      | returned => cases htear
      | sweeping => cases htear
  | finish k id token hk ho =>
    rcases List.mem_or_eq_of_mem_set ht with ht | rfl
    · exact hold t ht
    · have hd : w.Drained id token := hm _ (List.mem_of_getElem? hk)
      refine ⟨⟨⟨hd.minted, hd.store⟩, hd.found⟩, ?_⟩
      intro h hl hof
      exact hok id token hk h hl hof (hd.owed h hl hof)
  | _ => exact hold t ht

/-- In every run in which `RevokeLease` is the last to close, it is complete when it returns and
stays so. -/
theorem revocationComplete_of_returnsLast (h : Reach ReturnsLast w) : w.RevocationComplete := by
  have hm : ∀ t ∈ w.tasks, w.Meets t := by
    refine h.induct (P := fun w => ∀ t ∈ w.tasks, w.Meets t) ?_ ?_
    · intro s minted _ t ht
      cases ht
    · intro w a w' hi hm hok hst
      exact meets_step hm hi hok (step_cases hst)
  intro id token ht
  exact (hm _ ht : w.Closed id token).closed

def nothingOpen (w : World) : Act → Bool
  | .finish _ => decide (w.live = ∅)
  | _ => true

theorem revocationComplete_after_return :
    ∃ w, Reach ReturnsLast w ∧ w.listeners.length = 1 ∧
      (w.tasks.any fun | .returned _ _ => true | _ => false) = true ∧ w.RevocationComplete := by
  have hb : Reach ReturnsLast (World.boot sampleStore []) := .boot booted_sampleStore
  obtain ⟨w, hr, hl, ht⟩ := hb.of_exec nothingOpen
    ([sampleLease (lit "a") 0] ++ sampleConnect 0 0 ++ sampleStart 0 ++ [.revoke (lit "a") true,
      .teardown 0, .close (.task 0), .close (.task 0), .finish 0])
    (fun w => w.listeners.length = 1 ∧
      (w.tasks.any fun | .returned _ _ => true | _ => false) = true) (by
      intro w a hi ht
      cases a with
      | finish k =>
        intro id token _ h hl
        rw [of_decide_eq_true ht] at hl
        exact absurd hl (Finset.notMem_empty h)
      | _ => trivial) (by decide)
  exact ⟨w, hr, hl, ht, revocationComplete_of_returnsLast hr⟩

/-- A cancel has detached the forward and not closed it yet when the revocation returns. -/
theorem returned_before_cancel_closes :
    ∃ w, Reach (fun _ _ => True) w ∧ ¬ w.RevocationComplete := by
  have hb : Reach (fun _ _ => True) (World.boot sampleStore []) := .boot booted_sampleStore
  obtain ⟨w, hr, hlive, hln, ht⟩ := hb.of_exec (fun _ _ => true)
    ([sampleLease (lit "a") 0] ++ sampleConnect 0 0 ++ sampleStart 0 ++ [.cancel 0,
      .revoke (lit "a") true, .teardown 0, .close (.task 0), .finish 0])
    (fun w => Handle.listener 0 ∈ w.live ∧
      w.listeners[0]?.map (fun ln => (ln.lease, ln.token)) = some (lit "a", sampleToken 0) ∧
      (w.tasks[0]?.any fun
        | .returned id token => decide (id = lit "a" ∧ token = sampleToken 0)
        | _ => false) = true)
    (fun _ _ _ _ => trivial) (by decide)
  refine ⟨w, hr, ?_⟩
  intro hc
  obtain ⟨ln, hln, he⟩ := Option.map_eq_some_iff.1 hln
  obtain ⟨hid, htok⟩ := Prod.mk.inj he
  cases hk : w.tasks[0]? with
  | none =>
    rw [hk] at ht
    cases ht
  | some t =>
    rw [hk] at ht
    cases t with
    | returned id token =>
      obtain ⟨rfl, rfl⟩ := of_decide_eq_true ht
      exact hc _ _ (List.mem_of_getElem? hk) _ hlive ⟨ln, hln, hid, htok⟩
    | _ => cases ht

end World

end HyruleProxy
