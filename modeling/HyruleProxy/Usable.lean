import HyruleProxy.DaemonInvariant
import HyruleProxy.Sweep
import HyruleProxy.Durations

namespace HyruleProxy
set_option autoImplicit true

/-- The calls on the store that a control operation makes. -/
def Control.calls (cfg : TunnelConfig) (s : Store) (env : ControlEnv) : Control → List Call
  | .createLease leaseID seconds cidrs =>
    [.create ⟨leaseID, clampDuration cfg seconds, cidrs⟩
      ⟨env.portInUse, env.rand, env.now, env.persist⟩]
  | .extendLease id seconds => [.extend id (clampDuration cfg seconds) env.persist]
  | .revokeLease id => [.revoke id (env.commits id)]
  | .sweepExpired => (env.order (s.expiredBefore env.now)).map fun id =>
      .markExpiredIfBefore id env.now (env.commits id)
  | _ => []

/-- The store after a history of control operations, each with the clock reading it sees. -/
def controls (cfg : TunnelConfig) (s : Store) (ops : List (Control × ControlEnv)) : Store :=
  ops.foldl (fun s x => (control cfg s x.2 x.1).2) s

/-- The tokens that a history mints. -/
def Control.mints (ops : List (Control × ControlEnv)) : List GoString :=
  ops.filterMap fun x =>
    match x.1 with
    | .createLease .. => mintToken x.2.rand
    | _ => none

theorem sweepLoop_store (cutoff : Time) (commits : GoString → Bool) (ids : List GoString)
    (s : Store) (n : Nat) : (sweepLoop cutoff commits ids s n).2 =
      Call.runAll s (ids.map fun id => .markExpiredIfBefore id cutoff (commits id)) := by
  induction ids generalizing s n with
  | nil => rfl
  | cons id ids ih =>
    rw [sweepLoop]
    split
    · exact ih _ _
    · split
      · exact ih _ _
      · exact ih _ _

theorem control_store (cfg : TunnelConfig) (s : Store) (env : ControlEnv) (op : Control) :
    (control cfg s env op).2 = Call.runAll s (op.calls cfg s env) := by
  cases op with
  | sweepExpired => exact sweepLoop_store _ _ _ _ _
  | _ => rfl

/-- The calls on the store along a history. -/
def Control.history (cfg : TunnelConfig) : Store → List (Control × ControlEnv) → List Call
  | _, [] => []
  | s, x :: ops => x.1.calls cfg s x.2 ++ history cfg (control cfg s x.2 x.1).2 ops

theorem controls_eq (cfg : TunnelConfig) (s : Store) (ops : List (Control × ControlEnv)) :
    controls cfg s ops = Call.runAll s (Control.history cfg s ops) := by
  induction ops generalizing s with
  | nil => rfl
  | cons x ops ih =>
    have hstep : controls cfg s (x :: ops) = controls cfg (control cfg s x.2 x.1).2 ops := rfl
    rw [hstep, ih, Control.history, Call.runAll, Call.runAll, List.foldl_append, control_store]
    rfl

theorem Control.mints_calls (cfg : TunnelConfig) (s : Store) (x : Control × ControlEnv) :
    Call.mints (x.1.calls cfg s x.2) = Control.mints [x] := by
  obtain ⟨op, env⟩ := x
  cases op with
  | sweepExpired =>
    apply List.filterMap_eq_nil_iff.2
    intro c hc
    obtain ⟨id, _, rfl⟩ := List.mem_map.1 hc
    rfl
  | _ => rfl

theorem Control.mints_history (cfg : TunnelConfig) (s : Store)
    (ops : List (Control × ControlEnv)) :
    Call.mints (Control.history cfg s ops) = Control.mints ops := by
  induction ops generalizing s with
  | nil => rfl
  | cons x ops ih =>
    have hsplit : Control.mints (x :: ops) = Control.mints [x] ++ Control.mints ops := by
      rw [Control.mints, ← List.singleton_append, List.filterMap_append]
      rfl
    rw [Control.history, hsplit, ← ih, ← Control.mints_calls cfg s]
    exact List.filterMap_append

namespace Store

variable {s : Store} {id t : GoString} {r : Nat} {l l' : Lease}

/-- What stays true of the indexes also when a token is minted twice: every id has its own
lease, and every token belongs to a lease that its id finds. -/
structure Linked (s : Store) : Prop where
  byID : ∀ {id : GoString} {r : Nat}, s.byID[id]? = some r →
    ∃ l : Lease, s.heap[r]? = some l ∧ l.leaseID = id
  byToken : ∀ {t : GoString} {r : Nat}, s.byToken[t]? = some r →
    ∃ l : Lease, s.heap[r]? = some l ∧ l.token = t ∧ s.byID[l.leaseID]? = some r
  cursor : s.alloc.InRange

theorem Inv.linked (h : s.Inv) : s.Linked := by
  refine ⟨?_, h.indexed.byToken, h.cursor⟩
  intro id r hr
  obtain ⟨l, hl, hid, _⟩ := h.indexed.byID hr
  exact ⟨l, hl, hid⟩

theorem Linked.own_id (h : s.Linked) (hg : s.get id = some l) : l.leaseID = id := by
  obtain ⟨r, hr, hl⟩ := get_eq_some.1 hg
  obtain ⟨l', hl', hid⟩ := h.byID hr
  rw [hl] at hl'
  cases hl'
  exact hid

theorem Linked.byID_none (h : s.Linked) (hg : s.get id = none) : s.byID[id]? = none := by
  cases hr : s.byID[id]? with
  | none => rfl
  | some r =>
    obtain ⟨l, hl, _⟩ := h.byID hr
    rw [get_eq_some.2 ⟨r, hr, hl⟩] at hg
    cases hg

theorem Linked.install (h : s.Linked) (hid : s.get l.leaseID = none) : (s.install l).Linked := by
  have hnone := h.byID_none hid
  refine ⟨?_, ?_, h.cursor⟩
  · intro id r hr
    rw [byID_install] at hr
    split at hr
    · cases hr
      exact ⟨l, heap_install_self l, by assumption⟩
    · obtain ⟨l', hl', hown⟩ := h.byID hr
      exact ⟨l', heap_install l hl', hown⟩
  · intro t r hr
    rw [byToken_install] at hr
    split at hr
    · cases hr
      refine ⟨l, heap_install_self l, by assumption, ?_⟩
      rw [byID_install, if_pos rfl]
    · obtain ⟨l', hl', htok, hown⟩ := h.byToken hr
      refine ⟨l', heap_install l hl', htok, ?_⟩
      rw [byID_install, if_neg, hown]
      intro he
      rw [← he, hnone] at hown
      cases hown

theorem Linked.remove (h : s.Linked) (id : GoString) (commits : Bool) :
    (s.remove id commits).store.Linked := by
  rcases s.remove_cases id commits with ⟨e, he⟩ | ⟨l, hr⟩
  · rw [he]
    exact h
  · rw [hr.outcome]
    refine ⟨?_, ?_, h.cursor⟩
    · intro id' r' hr'
      rw [GoMap.get_erase] at hr'
      split at hr'
      · cases hr'
      · exact h.byID hr'
    · intro t r' hr'
      rw [GoMap.get_erase] at hr'
      split at hr'
      · cases hr'
      · rename_i hne
        obtain ⟨l', hl', htok, hown⟩ := h.byToken hr'
        refine ⟨l', hl', htok, ?_⟩
        rw [GoMap.get_erase, if_neg, hown]
        -- the lease under the removed id has another token
        rintro rfl
        have hl := hr.get
        rw [get_eq_some.2 ⟨r', hown, hl'⟩] at hl
        cases hl
        exact hne htok

theorem Linked.extend (h : s.Linked) (id : GoString) (d : Duration) (o : Persist) :
    (s.extend id d o).store.Linked := by
  rcases s.extend_cases id d o with ⟨e, he⟩ | ⟨l, r, db, hr⟩
  · rw [he]
    exact h
  · rw [hr.outcome]
    have hcell {r' : Nat} {l₁ : Lease} (h₁ : s.heap[r']? = some l₁) :=
      heap_set_cell { l with expiresAt := l.expiresAt + d } hr.cell rfl rfl h₁
    refine ⟨?_, ?_, h.cursor⟩
    · intro id' r' hr'
      obtain ⟨l₁, h₁, hown⟩ := h.byID hr'
      obtain ⟨l₂, h₂, hid, _⟩ := hcell h₁
      exact ⟨l₂, h₂, hid.trans hown⟩
    · intro t r' hr'
      obtain ⟨l₁, h₁, htok, hown⟩ := h.byToken hr'
      obtain ⟨l₂, h₂, hid, ht⟩ := hcell h₁
      exact ⟨l₂, h₂, ht.trans htok, by rw [hid]; exact hown⟩

theorem Linked.create (h : s.Linked) (p : CreateParams) (env : CreateEnv) :
    (s.create p env).store.Linked := by
  rcases s.create_cases h.cursor p env with ⟨l, _, he⟩ | ⟨a, hf⟩ | ⟨l, a, db, hc⟩
  · rw [he]
    exact h
  · rw [hf.store]
    exact ⟨h.byID, h.byToken, hf.cursor⟩
  · rw [hc.outcome]
    have h' : ({ s with alloc := a, db := db } : Store).Linked := ⟨h.byID, h.byToken, hc.cursor⟩
    apply h'.install
    rw [hc.leaseID]
    exact hc.absent

theorem Linked.call (h : s.Linked) (c : Call) : (c.run s).store.Linked := by
  cases c with
  | create p env => exact h.create p env
  | extend id d o => exact h.extend id d o
  | revoke id commits => exact h.remove id commits
  | markExpired id commits => exact h.remove id commits
  | markExpiredIfBefore id cutoff commits =>
    rcases s.markExpiredIfBefore_cases id cutoff commits with ⟨w, e, he⟩ | ⟨l, _, _, he⟩
    · rw [Call.run, he]
      exact h
    · rw [Call.run, he]
      exact h.remove id commits

theorem Linked.runAll (h : s.Linked) (cs : List Call) : (Call.runAll s cs).Linked := by
  induction cs generalizing s with
  | nil => exact h
  | cons c cs ih => exact ih (h.call c)

theorem findByToken_install (s : Store) (l : Lease) :
    (s.install l).findByToken l.token = some l := by
  have hd : (s.install l).deref (s.install l).byToken[l.token]? = some l := by
    rw [byToken_install, if_pos rfl]
    exact heap_install_self l
  simp only [findByToken, hd, if_true]

theorem Linked.byToken_of_find (h : s.Linked) (hg : s.get id = some l)
    (hf : s.findByToken l.token = some l') (hown : l'.leaseID = l.leaseID) :
    s.byToken[l.token]? = s.byID[id]? := by
  cases ht : s.byToken[l.token]? with
  | none => simp [findByToken, deref, ht] at hf
  | some r =>
    obtain ⟨l₁, h₁, htok, hown₁⟩ := h.byToken ht
    simp only [findByToken, deref, ht, Option.bind_some, h₁, htok, if_true,
      Option.some.injEq] at hf
    rw [hf, hown, h.own_id hg] at hown₁
    exact hown₁.symm

theorem findByToken_of_byToken (hg : s.get id = some l) (h : s.byToken[l.token]? = s.byID[id]?) :
    s.findByToken l.token = some l := by
  have hd : s.deref s.byToken[l.token]? = some l := by
    rw [h]
    exact hg
  simp only [findByToken, hd, if_true]

end Store

/-- The store of a daemon that has just opened a file with a sound set of leases. -/
def Launched (s : Store) : Prop :=
  ∃ (db : DB) (L : Ledger) (min max : Int) (now : Time), L.Sound ∧ db.Keeps L ∧
    openStore db min max now true = some s

theorem Launched.inv {s : Store} (h : Launched s) : s.Inv := by
  obtain ⟨db, L, min, max, now, hs, hk, ho⟩ := h
  obtain ⟨s', ho', hop⟩ := openStore_spec hs hk min max now
  rw [ho'] at ho
  cases ho
  exact hop.inv

/-- The lease of an answer to `CreateLease` can be used now: it has not expired, and its token
is accepted and leads to its id and its port. -/
structure Usable (s : Store) (now : Time) (resp : LeaseResponse) : Prop where
  unexpired : now < resp.expiresAt
  accepted : ∃ l, authByToken s resp.token now = some l ∧ l.leaseID = resp.leaseID ∧
    l.allocatedPort = resp.port

section Create

variable {cfg : TunnelConfig} {s s' : Store} {env : ControlEnv} {id : GoString} {seconds : Int}
  {cidrs : List GoString} {resp : LeaseResponse} {l : Lease}

theorem usable_of_new (hd : (0 : Int) < clampDuration cfg seconds) (hg : s.get id = none)
    (h : control cfg s env (.createLease id seconds cidrs) = (.created (.ok resp), s')) :
    Usable s' env.now resp := by
  obtain ⟨hans, rfl⟩ := Prod.mk.inj h
  obtain ⟨l, hl, rfl⟩ := map_eq_ok (Answer.created.inj hans)
  obtain ⟨token, port, s₁, rfl, hst⟩ := Store.create_new hg hl
  have hlive : env.now < env.now + clampDuration cfg seconds := lt_add_of_pos_right _ hd
  refine ⟨hlive, _, ?_, rfl, rfl⟩
  apply liveAt_eq_some.2
  rw [hst]
  exact ⟨Store.findByToken_install s₁ _, hlive⟩

theorem create_existing (hg : s.get id = some l)
    (h : control cfg s env (.createLease id seconds cidrs) = (.created (.ok resp), s')) :
    s' = s ∧ resp = toResponse cfg env.stats l true := by
  obtain ⟨hans, rfl⟩ := Prod.mk.inj h
  obtain ⟨l', hl', rfl⟩ := map_eq_ok (Answer.created.inj hans)
  have he : s.create ⟨id, clampDuration cfg seconds, cidrs⟩
      ⟨env.portInUse, env.rand, env.now, env.persist⟩ = ⟨.ok l, s, [s]⟩ := by
    simp only [Store.create, hg]
  rw [he] at hl'
  cases hl'
  exact ⟨congrArg Outcome.store he, rfl⟩

/-- A lease that is already there is usable when it has not expired and its token still leads
to it. -/
theorem Store.Linked.usable_iff (hs : s.Linked) (hg : s.get id = some l) :
    Usable s env.now (toResponse cfg env.stats l true) ↔
      env.now < l.expiresAt ∧ s.byToken[l.token]? = s.byID[id]? := by
  constructor
  · rintro ⟨hlt, l', ha, hid, _⟩
    exact ⟨hlt, hs.byToken_of_find hg (liveAt_eq_some.1 ha).1 hid⟩
  · rintro ⟨hlt, ht⟩
    exact ⟨hlt, l, liveAt_eq_some.2 ⟨Store.findByToken_of_byToken hg ht, hlt⟩, rfl, rfl⟩

theorem Store.Linked.created_usable (hs : s.Linked) (hd : (0 : Int) < clampDuration cfg seconds)
    (h : control cfg s env (.createLease id seconds cidrs) = (.created (.ok resp), s')) :
    Usable s' env.now resp ↔ ∀ l, s.get id = some l →
      env.now < l.expiresAt ∧ s.byToken[l.token]? = s.byID[id]? := by
  cases hg : s.get id with
  | none =>
    refine iff_of_true (usable_of_new hd hg h) ?_
    rintro l ⟨⟩
  | some l =>
    obtain ⟨rfl, rfl⟩ := create_existing hg h
    rw [hs.usable_iff hg]
    constructor
    · rintro hl l' ⟨rfl⟩
      exact hl
    · intro hl
      exact hl l rfl

theorem Launched.linked_controls {s₀ : Store} (h : Launched s₀) (cfg : TunnelConfig)
    (ops : List (Control × ControlEnv)) : (controls cfg s₀ ops).Linked := by
  rw [controls_eq]
  exact h.inv.linked.runAll _

/-- After any history, a lease that `CreateLease` answers with is usable exactly when the lease
that was under its id, if there was one, has not expired and is the one its token leads to. -/
theorem created_usable_iff {s₀ : Store} (h₀ : Launched s₀) (ops : List (Control × ControlEnv))
    (hd : (0 : Int) < clampDuration cfg seconds)
    (h : control cfg (controls cfg s₀ ops) env (.createLease id seconds cidrs) =
      (.created (.ok resp), s')) :
    Usable s' env.now resp ↔ ∀ l, (controls cfg s₀ ops).get id = some l →
      env.now < l.expiresAt ∧
        (controls cfg s₀ ops).byToken[l.token]? = (controls cfg s₀ ops).byID[id]? :=
  (h₀.linked_controls cfg ops).created_usable hd h

theorem created_usable_of_fresh {s₀ : Store} (h₀ : Launched s₀)
    (ops : List (Control × ControlEnv)) (hn : (Control.mints ops).Nodup)
    (hf : Call.Fresh s₀.get (Control.mints ops))
    (hd : (0 : Int) < clampDuration cfg seconds)
    (h : control cfg (controls cfg s₀ ops) env (.createLease id seconds cidrs) =
      (.created (.ok resp), s')) :
    Usable s' env.now resp ↔
      ∀ l, (controls cfg s₀ ops).get id = some l → env.now < l.expiresAt := by
  have hi : (controls cfg s₀ ops).Inv := by
    rw [← Control.mints_history cfg s₀] at hn hf
    rw [controls_eq]
    exact (Call.runAll_inv h₀.inv _ hn hf).1
  rw [hi.linked.created_usable hd h]
  constructor
  · intro hl l hg
    exact (hl l hg).1
  · intro hl l hg
    refine ⟨hl l hg, ?_⟩
    obtain ⟨r, hr, hc⟩ := Store.get_eq_some.1 hg
    obtain ⟨l', hc', _, ht⟩ := hi.indexed.byID hr
    rw [hc] at hc'
    cases hc'
    rw [ht, hr]

end Create

/-- A request for an hour under the id `a`. -/
def hourLease (now : Time) : Control × ControlEnv :=
  (.createLease (lit "a") 3600 [],
    { portInUse := fun _ => false
      rand := some (List.replicate 20 0)
      now := now
      persist := .commits
      commits := fun _ => true
      order := fun ids => ids
      stats := fun _ => ⟨false, 0, 0, 0⟩ })

def hourConfig : TunnelConfig := ⟨lit "tun.hyrule.host", 2222, 3600, 2592000⟩

/-- The store that `Open` makes of an empty file. -/
def freshStore : Store := ⟨⟨some ∅⟩, [], ∅, ∅, newPortAllocator 20000 20001⟩

theorem launched_fresh : Launched freshStore :=
  ⟨DB.empty, _, 20000, 20001, 0, Store.sound_empty, Store.keeps_empty, rfl⟩

/-- A lease made at the time 0 is usable until its hour is over. -/
theorem created_usable_hour : ∃ resp s',
    control hourConfig (controls hourConfig freshStore [hourLease 0]) (hourLease 1).2
      (hourLease 1).1 = (.created (.ok resp), s') ∧ Usable s' 1 resp := by
  have hd : (0 : Int) < clampDuration hourConfig 3600 := by decide
  obtain ⟨resp, s', h⟩ : ∃ resp s',
      control hourConfig (controls hourConfig freshStore [hourLease 0]) (hourLease 1).2
        (hourLease 1).1 = (.created (.ok resp), s') := ⟨_, _, rfl⟩
  refine ⟨resp, s', h, (created_usable_iff launched_fresh [hourLease 0] hd h).2 ?_⟩
  intro l hl
  cases hl
  exact ⟨by decide, by decide⟩

/-- Two hours later, with no sweep in between, the same request is answered with the lease that
has expired, and its token is refused. -/
theorem created_expired : Launched freshStore ∧ ∃ resp s',
    control hourConfig (controls hourConfig freshStore [hourLease 0])
      (hourLease (7200 * 10 ^ 9)).2 (hourLease (7200 * 10 ^ 9)).1 = (.created (.ok resp), s') ∧
    resp.expiresAt = 3600 * 10 ^ 9 ∧ authByToken s' resp.token (7200 * 10 ^ 9) = none ∧
    ¬ Usable s' (7200 * 10 ^ 9) resp := by
  refine ⟨launched_fresh, _, _, rfl, by decide, by decide, ?_⟩
  intro h
  exact absurd h.unexpired (by decide)

end HyruleProxy
