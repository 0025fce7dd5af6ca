import HyruleProxy.StoreRun
import HyruleProxy.Coordinator
import HyruleProxy.Manager

namespace HyruleProxy
set_option autoImplicit true

/-- The store, the entries of the manager, the handles closed so far and the number of leases
reaped so far. -/
structure Sweep where
  store : Store
  leases : Leases
  closed : List Handle
  reaped : Nat

section Loop

variable (cutoff : Time) (commits : GoString → Bool)

/-- The body of the loop of `SweepExpired`; `commits` says for which ids the row is deleted. -/
def sweepStep (w : Sweep) (id : GoString) : Sweep :=
  let r := w.store.markExpiredIfBefore id cutoff (commits id)
  if ¬ r.result.wasExpired then { w with store := r.store }
  else
    let t := w.leases.teardown id
    let w := { w with store := r.store, leases := t.1, closed := w.closed ++ t.2 }
    if r.result.err.isSome ∨ ¬ r.result.removed then w else { w with reaped := w.reaped + 1 }

/-- The model of `SweepExpired` when nothing else runs; `order` is the order in which
`ExpiredBefore` lists the ids. -/
def sweepExpired (order : List GoString → List GoString) (s : Store) (m : Leases) : Sweep :=
  (order (s.expiredBefore cutoff)).foldl (sweepStep cutoff commits) ⟨s, m, [], 0⟩

/-- The store and the count do not depend on the manager. -/
theorem sweepLoop_eq (ids : List GoString) (w : Sweep) :
    sweepLoop cutoff commits ids w.store w.reaped =
      ((ids.foldl (sweepStep cutoff commits) w).reaped,
        (ids.foldl (sweepStep cutoff commits) w).store) := by
  induction ids generalizing w with
  | nil => rfl
  | cons id ids ih =>
    simp only [sweepLoop, List.foldl_cons]
    rw [← ih, sweepStep]
    split
    · rfl
    · dsimp only
      split <;> rfl

theorem control_sweepExpired (cfg : TunnelConfig) (s : Store) (env : ControlEnv) (m : Leases) :
    control cfg s env .sweepExpired =
      (.reaped (sweepExpired env.now env.commits env.order s m).reaped,
        (sweepExpired env.now env.commits env.order s m).store) := by
  simp only [control]
  rw [sweepLoop_eq env.now env.commits _ ⟨s, m, [], 0⟩]
  rfl

end Loop

theorem GoMap.erase_comm [Ord K] [Std.TransOrd K] [Std.LawfulEqOrd K] (m : GoMap K V) (a b : K) :
    (m.erase a).erase b = (m.erase b).erase a := by
  apply Std.ExtTreeMap.ext_getElem?
  intro k
  simp only [Std.ExtTreeMap.getElem?_erase]
  split <;> split <;> rfl

theorem GoMap.eraseKeys_perm [Ord K] [Std.TransOrd K] [Std.LawfulEqOrd K] {ks ks' : List K}
    (h : ks.Perm ks') (m : GoMap K V) : m.eraseKeys ks = m.eraseKeys ks' :=
  h.foldl_eq' (fun a _ b _ m => m.erase_comm a b) m

theorem GoMap.size_erase_present [Ord K] [Std.TransOrd K] [Std.LawfulEqOrd K] {m : GoMap K V}
    {k : K} {v : V} (h : m[k]? = some v) : (m.erase k).size + 1 = m.size := by
  have hpos : m.size ≠ 0 := by
    intro hz
    rw [Std.ExtTreeMap.eq_empty_iff_size_eq_zero.2 hz, GoMap.get_empty] at h
    cases h
  rw [Std.ExtTreeMap.size_erase, if_pos]
  · omega
  · rw [Std.ExtTreeMap.contains_eq_isSome_getElem?, h]
    rfl

theorem DB.rows_delete (db : DB) (a id : GoString) :
    (db.delete a).rows[id]? = if a = id then none else db.rows[id]? := by
  rw [rows, delete, rows]
  cases db.leases with
  | none => simp
  | some b => exact GoMap.get_erase b a id

theorem DB.delete_comm (db : DB) (a b : GoString) :
    (db.delete a).delete b = (db.delete b).delete a := by
  cases db with
  | mk leases =>
    cases leases with
    | none => rfl
    | some m => exact congrArg (fun m => DB.mk (some m)) (GoMap.erase_comm m a b)

namespace Store

variable {s : Store} {id : GoString} {l : Lease}

/-- What `remove` leaves of a lease it finds. -/
def dropped (s : Store) (id : GoString) (l : Lease) : Store :=
  { s with
    db := s.db.delete id
    byID := s.byID.erase id
    byToken := s.byToken.erase l.token
    alloc := s.alloc.release l.allocatedPort }

theorem remove_absent (h : s.get id = none) : (s.remove id true).store = s := by
  rw [remove, h]

theorem remove_present (h : s.get id = some l) : (s.remove id true).store = s.dropped id l := by
  rw [remove, h]
  rfl

theorem get_remove (s : Store) (id : GoString) :
    (s.remove id true).store.get = Function.update s.get id none := by
  cases h : s.get id with
  | none => rw [remove_absent h, Function.update_eq_self_iff.2 h.symm]
  | some l =>
    rw [remove_present h]
    funext id'
    rw [Function.update_apply, get, dropped, GoMap.get_erase]
    by_cases hid : id = id'
    · rw [if_pos hid, if_pos hid.symm]
      rfl
    · rw [if_neg hid, if_neg (Ne.symm hid)]
      rfl

theorem remove_comm (s : Store) (a b : GoString) :
    ((s.remove a true).store.remove b true).store =
      ((s.remove b true).store.remove a true).store := by
  by_cases hab : a = b
  · rw [hab]
  have hb := congrFun (s.get_remove a) b
  have ha := congrFun (s.get_remove b) a
  rw [Function.update_of_ne (Ne.symm hab)] at hb
  rw [Function.update_of_ne hab] at ha
  cases hga : s.get a with
  | none => rw [remove_absent (ha.trans hga), remove_absent hga]
  | some la =>
    cases hgb : s.get b with
    | none => rw [remove_absent (hb.trans hgb), remove_absent hgb]
    | some lb =>
      rw [remove_present (hb.trans hgb), remove_present (ha.trans hga), remove_present hga,
        remove_present hgb]
      simp only [dropped, PortAllocator.release, DB.delete_comm _ a b, GoMap.erase_comm _ a b,
        GoMap.erase_comm _ la.token lb.token, Finset.erase_right_comm (a := la.allocatedPort)]

/-- The leases of a list of ids are removed, one after the other. -/
def removeAll (s : Store) (ids : List GoString) : Store :=
  ids.foldl (fun s id => (s.remove id true).store) s

theorem removeAll_perm {ids ids' : List GoString} (h : ids.Perm ids') (s : Store) :
    s.removeAll ids = s.removeAll ids' :=
  h.foldl_eq' (fun a _ b _ s => s.remove_comm a b) s

theorem get_removeAll (s : Store) (ids : List GoString) (id : GoString) :
    (s.removeAll ids).get id = if id ∈ ids then none else s.get id := by
  induction ids generalizing s with
  | nil => rfl
  | cons a ids ih =>
    have he : s.removeAll (a :: ids) = (s.remove a true).store.removeAll ids := rfl
    rw [he, ih, get_remove, Function.update_apply]
    by_cases hi : id ∈ ids
    · simp [hi]
    · simp [hi]

/-- What a removal preserves is preserved when a list of leases is removed. -/
theorem removeAll_induction {P : Store → Prop} (h : P s)
    (hstep : ∀ s id l, P s → s.get id = some l → P (s.dropped id l)) (ids : List GoString) :
    P (s.removeAll ids) := by
  induction ids generalizing s with
  | nil => exact h
  | cons id ids ih =>
    apply ih
    dsimp only
    cases hg : s.get id with
    | none =>
      rw [remove_absent hg]
      exact h
    | some l =>
      rw [remove_present hg]
      exact hstep s id l h hg

theorem Indexed.removeAll (h : s.Indexed) (ids : List GoString) : (s.removeAll ids).Indexed := by
  apply removeAll_induction h
  intro s id l h hg
  have hu := h.uninstall hg
  rw [Store.uninstall, h.own_id hg] at hu
  exact ⟨hu.byID, hu.byToken⟩

theorem ports_removeAll (h : Ledger.Ports s.get s.alloc) (ids : List GoString) :
    Ledger.Ports (s.removeAll ids).get (s.removeAll ids).alloc := by
  apply removeAll_induction (P := fun s => Ledger.Ports s.get s.alloc) h
  intro s id l h hg
  rw [← remove_present hg, get_remove, remove_present hg]
  exact h.erase hg

theorem alloc_removeAll (s : Store) (ids : List GoString) :
    (s.removeAll ids).alloc = { s.alloc with used := (s.removeAll ids).alloc.used } := by
  apply removeAll_induction (P := fun s' => s'.alloc = { s.alloc with used := s'.alloc.used }) rfl
  intro s' id l h hg
  rw [dropped, PortAllocator.release]
  dsimp only
  rw [h]

theorem size_removeAll {ids : List GoString} (hn : ids.Nodup)
    (hg : ∀ id ∈ ids, (s.get id).isSome) :
    (s.removeAll ids).byID.size + ids.length = s.byID.size := by
  induction ids generalizing s with
  | nil => rfl
  | cons id ids ih =>
    obtain ⟨hid, hn⟩ := List.nodup_cons.1 hn
    obtain ⟨l, hl⟩ := Option.isSome_iff_exists.1 (hg id List.mem_cons_self)
    have hrest : ∀ i ∈ ids, ((s.remove id true).store.get i).isSome := by
      intro i hi
      rw [get_remove, Function.update_of_ne (by rintro rfl; exact hid hi)]
      exact hg i (List.mem_cons_of_mem id hi)
    have hsize := ih hn hrest
    obtain ⟨r, hr, _⟩ := get_eq_some.1 hl
    have he : s.removeAll (id :: ids) = (s.remove id true).store.removeAll ids := rfl
    have hone : (s.remove id true).store.byID.size + 1 = s.byID.size := by
      rw [remove_present hl, dropped]
      exact GoMap.size_erase_present hr
    rw [he, List.length_cons]
    omega

theorem rows_removeAll (s : Store) (ids : List GoString) (id : GoString) :
    (s.removeAll ids).db.rows[id]? =
      if id ∈ ids ∧ (s.get id).isSome then none else s.db.rows[id]? := by
  induction ids generalizing s with
  | nil => simp [removeAll]
  | cons a ids ih =>
    have he : s.removeAll (a :: ids) = (s.remove a true).store.removeAll ids := rfl
    rw [he, ih, get_remove, Function.update_apply]
    cases hg : s.get a with
    | none =>
      rw [remove_absent hg]
      by_cases hid : id = a
      · simp [hid, hg]
      · simp [hid]
    | some l =>
      rw [remove_present hg, dropped, DB.rows_delete]
      by_cases hid : a = id
      · simp [← hid, hg]
      · simp [hid, Ne.symm hid]

theorem mem_expiredBefore {t : Time} :
    id ∈ s.expiredBefore t ↔ ∃ l, s.get id = some l ∧ l.expired t = true := by
  rw [expiredBefore, List.mem_filter, GoMap.mem_keys_iff, Option.any_eq_true]
  constructor
  · rintro ⟨_, l, hl, he⟩
    exact ⟨l, hl, he⟩
  · rintro ⟨l, hl, he⟩
    obtain ⟨r, hr, _⟩ := get_eq_some.1 hl
    exact ⟨⟨r, hr⟩, l, hl, he⟩

theorem nodup_expiredBefore (s : Store) (t : Time) : (s.expiredBefore t).Nodup :=
  Std.ExtTreeMap.nodup_keys.filter _

end Store

/-- The handles that a teardown of a lease closes. -/
def Leases.owed (m : Leases) (id : GoString) : List Handle :=
  (m[id]?.map LeaseState.handles).getD []

theorem Leases.teardown_eq (m : Leases) (id : GoString) :
    m.teardown id = (m.erase id, m.owed id) := by
  rw [teardown, owed]
  cases h : m[id]? with
  | none =>
    refine Prod.ext ?_ rfl
    apply Std.ExtTreeMap.ext_getElem?
    intro k
    rw [GoMap.get_erase]
    by_cases hk : id = k
    · rw [if_pos hk, ← hk]
      exact h
    · rw [if_neg hk]
  | some st => rfl

section Effect

variable {cutoff : Time} {commits : GoString → Bool} {s : Store} {m : Leases} {w : Sweep}
  {id : GoString} {l : Lease}

theorem sweepStep_expired (hg : w.store.get id = some l) (he : l.expired cutoff = true) :
    sweepStep cutoff commits w id =
      ⟨if commits id then (w.store.remove id true).store else w.store, w.leases.erase id,
        w.closed ++ w.leases.owed id, w.reaped + if commits id then 1 else 0⟩ := by
  have hle := not_lt.2 (Lease.expired_eq_true.1 he)
  cases hc : commits id with
  | true =>
    simp only [sweepStep, Store.markExpiredIfBefore, hg, if_neg hle, hc, Store.remove,
      Leases.teardown_eq, if_true]
    rfl
  | false =>
    simp only [sweepStep, Store.markExpiredIfBefore, hg, if_neg hle, hc, Store.remove,
      Leases.teardown_eq, Bool.false_eq_true, if_false]
    rfl

/-- The loop over distinct ids of expired leases: the order enters only in the list of the
closed handles. -/
theorem foldl_sweepStep {ids : List GoString} (hn : ids.Nodup)
    (he : ∀ id ∈ ids, ∃ l, w.store.get id = some l ∧ l.expired cutoff = true) :
    ids.foldl (sweepStep cutoff commits) w =
      ⟨w.store.removeAll (ids.filter commits), w.leases.eraseKeys ids,
        w.closed ++ ids.flatMap w.leases.owed, w.reaped + ids.countP commits⟩ := by
  induction ids generalizing w with
  | nil => simp [Store.removeAll, GoMap.eraseKeys]
  | cons id ids ih =>
    obtain ⟨hid, hn⟩ := List.nodup_cons.1 hn
    obtain ⟨l, hg, hl⟩ := he id List.mem_cons_self
    have howed : ids.flatMap (Leases.owed (w.leases.erase id)) = ids.flatMap w.leases.owed := by
      apply List.flatMap_congr
      intro i hi
      rw [Leases.owed, GoMap.get_erase, if_neg (by rintro rfl; exact hid hi), Leases.owed]
    rw [List.foldl_cons, sweepStep_expired hg hl, ih hn]
    · cases hc : commits id with
      | true =>
        have hcount : w.reaped + 1 + ids.countP commits = w.reaped + (ids.countP commits + 1) := by
          omega
        simp [hc, howed, hcount, Store.removeAll, GoMap.eraseKeys]
      | false => simp [hc, howed, Store.removeAll, GoMap.eraseKeys]
    · intro i hi
      obtain ⟨l', hg', hl'⟩ := he i (List.mem_cons_of_mem id hi)
      refine ⟨l', ?_, hl'⟩
      dsimp only
      split
      · rw [Store.get_remove, Function.update_of_ne (by rintro rfl; exact hid hi), hg']
      · exact hg'

/-- The lease of an id is removed by a sweep at `t`. -/
def Reaps (s : Store) (t : Time) (commits : GoString → Bool) (id : GoString) (l : Lease) : Prop :=
  s.get id = some l ∧ l.expired t = true ∧ commits id = true

/-- What a sweep at `t` does to the store `s` and the entries `m` of the manager. -/
structure Sweeps (s : Store) (m : Leases) (t : Time) (commits : GoString → Bool)
    (w : Sweep) : Prop where
  kept : ∀ id l, w.store.get id = some l ↔ s.get id = some l ∧ ¬ Reaps s t commits id l
  byToken : ∀ token l, w.store.findByToken token = some l ↔
    s.findByToken token = some l ∧ ¬ Reaps s t commits l.leaseID l
  rows : ∀ id, w.store.db.rows[id]? =
    if (s.get id).any (·.expired t) ∧ commits id then none else s.db.rows[id]?
  ports : ∀ p, p ∈ w.store.alloc.used ↔
    p ∈ s.alloc.used ∧ ¬ ∃ id l, Reaps s t commits id l ∧ l.allocatedPort = p
  cursor : w.store.alloc = { s.alloc with used := w.store.alloc.used }
  entries : ∀ id, w.leases[id]? = if (s.get id).any (·.expired t) then none else m[id]?
  closed : ∀ h, h ∈ w.closed ↔
    ∃ id l st, s.get id = some l ∧ l.expired t = true ∧ m[id]? = some st ∧ h ∈ st.handles
  reaped : w.reaped = ((s.expiredBefore t).filter commits).length
  size : (w.reaped : Int) = s.stats.1 - w.store.stats.1

theorem Store.Indexed.findByToken (h : s.Indexed) {token : GoString} :
    s.findByToken token = some l ↔ l.token = token ∧ s.get l.leaseID = some l := by
  constructor
  · intro hf
    rw [Store.findByToken] at hf
    cases hd : s.deref s.byToken[token]? with
    | none => simp only [hd] at hf; cases hf
    | some l' =>
      obtain ⟨r, hr, hl⟩ := Option.bind_eq_some_iff.1 hd
      obtain ⟨l₁, hl₁, ht, hid⟩ := h.byToken hr
      simp only [hd] at hf
      split at hf
      · cases hf
        rw [hl] at hl₁
        cases hl₁
        exact ⟨ht, Store.get_eq_some.2 ⟨r, hid, hl⟩⟩
      · cases hf
  · rintro ⟨ht, hg⟩
    obtain ⟨r, hr, hl⟩ := Store.get_eq_some.1 hg
    obtain ⟨l₁, hl₁, _, hb⟩ := h.byID hr
    rw [hl] at hl₁
    cases hl₁
    rw [ht] at hb
    simp only [Store.findByToken, Store.deref, hb, Option.bind_some, hl, if_pos ht]

/-- The order of the ids does not show in the result, except in the order of the closes. -/
structure Sweep.Agrees (w w' : Sweep) : Prop where
  store : w.store = w'.store
  leases : w.leases = w'.leases
  closed : w.closed.Perm w'.closed
  reaped : w.reaped = w'.reaped

variable {order order' : List GoString → List GoString}

theorem sweepExpired_eq (ho : ∀ ids, (order ids).Perm ids) :
    sweepExpired cutoff commits order s m =
      ⟨s.removeAll ((s.expiredBefore cutoff).filter commits),
        m.eraseKeys (s.expiredBefore cutoff),
        (order (s.expiredBefore cutoff)).flatMap m.owed,
        ((s.expiredBefore cutoff).filter commits).length⟩ := by
  have hp := ho (s.expiredBefore cutoff)
  rw [sweepExpired, foldl_sweepStep (hp.nodup_iff.2 (s.nodup_expiredBefore cutoff))]
  · simp only [List.nil_append, Nat.zero_add]
    rw [Store.removeAll_perm (hp.filter commits), GoMap.eraseKeys_perm hp, hp.countP_eq,
      List.countP_eq_length_filter]
  · intro id hid
    exact Store.mem_expiredBefore.1 (hp.mem_iff.1 hid)

theorem mem_reaped :
    id ∈ (s.expiredBefore cutoff).filter commits ↔ ∃ l, Reaps s cutoff commits id l := by
  rw [List.mem_filter, Store.mem_expiredBefore]
  constructor
  · rintro ⟨⟨l, hl, he⟩, hc⟩
    exact ⟨l, hl, he, hc⟩
  · rintro ⟨l, hl, he, hc⟩
    exact ⟨⟨l, hl, he⟩, hc⟩

theorem Reaps.iff_of_get (h : s.get id = some l) :
    (∃ l', Reaps s cutoff commits id l') ↔ Reaps s cutoff commits id l := by
  constructor
  · rintro ⟨l', hr⟩
    have hl := hr.1
    rw [h] at hl
    cases hl
    exact hr
  · intro hr
    exact ⟨l, hr⟩

theorem get_reaped : (s.removeAll ((s.expiredBefore cutoff).filter commits)).get id = some l ↔
    s.get id = some l ∧ ¬ Reaps s cutoff commits id l := by
  rw [Store.get_removeAll, ite_eq_iff, mem_reaped]
  constructor
  · rintro (⟨_, h⟩ | ⟨hn, hg⟩)
    · cases h
    · exact ⟨hg, fun hr => hn ⟨l, hr⟩⟩
  · rintro ⟨hg, hn⟩
    exact .inr ⟨fun hr => hn ((Reaps.iff_of_get hg).1 hr), hg⟩

theorem used_reaped (hp : Ledger.Ports s.get s.alloc) (p : Int) :
    p ∈ (s.removeAll ((s.expiredBefore cutoff).filter commits)).alloc.used ↔
      p ∈ s.alloc.used ∧ ¬ ∃ id l, Reaps s cutoff commits id l ∧ l.allocatedPort = p := by
  rw [(Store.ports_removeAll hp _).used, hp.used]
  constructor
  · rintro ⟨id, l, hg, rfl⟩
    obtain ⟨hg, hn⟩ := get_reaped.1 hg
    refine ⟨⟨id, l, hg, rfl⟩, ?_⟩
    rintro ⟨id', l', hr, he⟩
    cases hp.inj hr.1 hg he
    exact hn ((Reaps.iff_of_get hg).1 ⟨l', hr⟩)
  · rintro ⟨⟨id, l, hg, he⟩, hn⟩
    exact ⟨id, l, get_reaped.2 ⟨hg, fun hr => hn ⟨id, l, hr, he⟩⟩, he⟩

theorem mem_closed {h : Handle} : h ∈ (s.expiredBefore cutoff).flatMap m.owed ↔
    ∃ id l st, s.get id = some l ∧ l.expired cutoff = true ∧ m[id]? = some st ∧
      h ∈ st.handles := by
  simp only [List.mem_flatMap, Store.mem_expiredBefore, Leases.owed]
  constructor
  · rintro ⟨id, ⟨l, hl, he⟩, hh⟩
    cases hst : m[id]? with
    | none =>
      rw [hst] at hh
      cases hh
    | some st =>
      rw [hst] at hh
      exact ⟨id, l, st, hl, he, hst, hh⟩
  · rintro ⟨id, l, st, hl, he, hst, hh⟩
    refine ⟨id, ⟨l, hl, he⟩, ?_⟩
    rw [hst]
    exact hh

theorem size_reaped (s : Store) (cutoff : Time) (commits : GoString → Bool) :
    (((s.expiredBefore cutoff).filter commits).length : Int) =
      s.stats.1 - (s.removeAll ((s.expiredBefore cutoff).filter commits)).stats.1 := by
  have h := Store.size_removeAll (s := s) ((s.nodup_expiredBefore cutoff).filter commits) (by
    intro id hid
    obtain ⟨l, hr⟩ := mem_reaped.1 hid
    rw [hr.1]
    rfl)
  simp only [Store.stats]
  omega

/-- The effect of a sweep that nothing interferes with, in whatever order the ids are listed. -/
theorem sweepExpired_sweeps (hi : s.Indexed) (hp : Ledger.Ports s.get s.alloc) (m : Leases)
    (cutoff : Time) (commits : GoString → Bool) (ho : ∀ ids, (order ids).Perm ids)
    (ho' : ∀ ids, (order' ids).Perm ids) :
    Sweeps s m cutoff commits (sweepExpired cutoff commits order s m) ∧
      (sweepExpired cutoff commits order s m).Agrees
        (sweepExpired cutoff commits order' s m) := by
  have hperm := ho (s.expiredBefore cutoff)
  rw [sweepExpired_eq ho, sweepExpired_eq ho']
  refine ⟨⟨?_, ?_, ?_, used_reaped hp, Store.alloc_removeAll s _, ?_, ?_, rfl,
    size_reaped s cutoff commits⟩, rfl, rfl, ?_, rfl⟩
  · intro id l
    exact get_reaped
  · intro token l
    rw [(hi.removeAll _).findByToken, hi.findByToken, get_reaped, and_assoc]
  · intro id
    rw [Store.rows_removeAll]
    apply if_congr _ rfl rfl
    rw [List.mem_filter, Store.mem_expiredBefore, Option.any_eq_true]
    constructor
    · rintro ⟨h, _⟩
      exact h
    · rintro ⟨⟨l, hl, he⟩, hc⟩
      exact ⟨⟨⟨l, hl, he⟩, hc⟩, by rw [hl]; rfl⟩
  · intro id
    have hmem : id ∈ s.expiredBefore cutoff ↔ (s.get id).any (·.expired cutoff) = true := by
      rw [Store.mem_expiredBefore, Option.any_eq_true]
    simp only [GoMap.get_eraseKeys, hmem]
  · intro h
    rw [(hperm.flatMap_right m.owed).mem_iff]
    exact mem_closed
  · exact (hperm.flatMap_right m.owed).trans
      ((ho' (s.expiredBefore cutoff)).flatMap_right m.owed).symm

end Effect

/-- Of two expired leases the delete of one fails, and both are torn down. -/
theorem sweepExpired_of_two :
    ∃ (s : Store) (m : Leases) (commits : GoString → Bool),
      commits (lit "a") = false ∧ (sweepExpired 7600 commits id s m).reaped = 1 ∧
      (sweepExpired 7600 commits id s m).closed = [.listener 3, .conn 0, .conn 1] ∧
      Sweeps s m 7600 commits (sweepExpired 7600 commits id s m) ∧
      (sweepExpired 7600 commits id s m).Agrees
        (sweepExpired 7600 commits List.reverse s m) := by
  have ho : openStore DB.empty 20000 20001 0 true = some _ := rfl
  have h := Store.opened_empty ho
  obtain ⟨hi, _⟩ := Call.runAll_inv h.inv
    [Store.sampleCreate (lit "a") 0 5, Store.sampleCreate (lit "b") 1 4000] (by decide) (by
      intro id l hl
      rw [h.get] at hl
      cases hl)
  refine ⟨_, (((∅ : Leases).insert (lit "a") ⟨0, some 3⟩).insert (lit "b") ⟨1, none⟩),
    (· == lit "b"), by decide, ?_, ?_,
    sweepExpired_sweeps hi.indexed hi.ports _ 7600 _ (fun _ => List.Perm.refl _)
      List.reverse_perm⟩
  · decide
  · decide

end HyruleProxy
