import HyruleProxy.StoreOpen

namespace HyruleProxy
set_option autoImplicit true

/-- A call on the store, together with what it reads from outside. -/
inductive Call where
  | create (p : CreateParams) (env : CreateEnv)
  | extend (id : GoString) (d : Duration) (o : Persist)
  | revoke (id : GoString) (commits : Bool)
  | markExpired (id : GoString) (commits : Bool)
  | markExpiredIfBefore (id : GoString) (cutoff : Time) (commits : Bool)

inductive Reply where
  | lease (r : Except StoreError Lease)
  | done (r : Except StoreError Unit)
  | expiry (r : Store.Expiry)

def Outcome.map (f : α → β) (o : Outcome α) : Outcome β := ⟨f o.result, o.store, o.points⟩

theorem filterMap_cons_toList (f : α → Option β) (x : α) (xs : List α) :
    (x :: xs).filterMap f = (f x).toList ++ xs.filterMap f := by
  cases h : f x with
  | none => exact List.filterMap_cons_none h
  | some y => exact List.filterMap_cons_some h

namespace Call

def run (s : Store) : Call → Outcome Reply
  | create p env => (s.create p env).map .lease
  | extend id d o => (s.extend id d o).map .lease
  | revoke id commits => (s.revoke id commits).map .done
  | markExpired id commits => (s.markExpired id commits).map .done
  | markExpiredIfBefore id cutoff commits => (s.markExpiredIfBefore id cutoff commits).map .expiry

/-- The token `mintToken` gives the call. -/
def token : Call → Option GoString
  | create _ env => mintToken env.rand
  | _ => none

/-- What an answered call has done to the ledger, as its caller sees it. -/
def effect (L : Ledger) : Call → Reply → Ledger
  | create p _, .lease (.ok l) => Function.update L p.leaseID (some l)
  | extend id _ _, .lease (.ok l) => Function.update L id (some l)
  | revoke id _, .done (.ok _) => Function.update L id none
  | markExpired id _, .done (.ok _) => Function.update L id none
  | markExpiredIfBefore id _ _, .expiry r => if r.removed then Function.update L id none else L
  | _, _ => L

/-- The outcome of a call agrees with its effect on the ledger, and a process that dies inside
the call leaves the database of before or of after. -/
structure Spec (s : Store) (c : Call) : Prop where
  inv : (c.run s).store.Inv
  get : (c.run s).store.get = c.effect s.get (c.run s).result
  points : ∀ q ∈ (c.run s).points, q.db = s.db ∨ q.db = (c.run s).store.db
  min : (c.run s).store.alloc.min = s.alloc.min
  max : (c.run s).store.alloc.max = s.alloc.max

variable {s : Store} {c : Call} {id i : GoString} {l : Lease} {ts : List GoString}

theorem spec_create (hs : s.Inv) (p : CreateParams) (env : CreateEnv)
    (ht : ∀ t id l, mintToken env.rand = some t → s.get id = some l → l.token ≠ t) :
    Spec s (create p env) := by
  rcases s.create_cases hs.cursor p env with ⟨l, hg, he⟩ | ⟨a, hf⟩ | ⟨l, a, db, hc⟩
  · have hr : (create p env).run s = ⟨.lease (.ok l), s, [s]⟩ := by
      rw [run, he]
      rfl
    refine ⟨by rw [hr]; exact hs, ?_, by simp [hr], by rw [hr], by rw [hr]⟩
    rw [hr, effect, Function.update_eq_self_iff.2 hg.symm]
  · obtain ⟨e, he⟩ := hf.result
    have hst : ((create p env).run s).store = { s with alloc := a } := hf.store
    refine ⟨?_, ?_, ?_, ?_, ?_⟩
    · rw [hst]
      exact hs.cursor_moves hf.cursor hf.alloc
    · rw [hst]
      simp only [run, Outcome.map, he, effect]
      rfl
    · intro q hq
      exact .inl (hf.points q hq)
    · rw [hst, hf.alloc]
    · rw [hst, hf.alloc]
  · have hn : ∀ id l', s.get id = some l' → l'.token ≠ l.token := by
      intro id l' hl'
      exact ht l.token id l' hc.minted hl'
    refine ⟨hs.create_commits hc hn, ?_, ?_, ?_, ?_⟩
    · have hg := hs.get_commits hc
      simp only [run, Outcome.map, effect, hc.outcome] at hg ⊢
      exact hg
    · intro q hq
      simp only [run, Outcome.map, hc.outcome, List.mem_cons, List.not_mem_nil, or_false] at hq
      rcases hq with rfl | rfl | rfl
      · exact .inl rfl
      · exact .inl rfl
      · refine .inr ?_
        simp only [run, Outcome.map, hc.outcome]
        rfl
    · simp only [run, Outcome.map, hc.outcome, Store.install]
      rw [hc.alloc]
    · simp only [run, Outcome.map, hc.outcome, Store.install]
      rw [hc.alloc]

theorem spec_extend (hs : s.Inv) (id : GoString) (d : Duration) (o : Persist) :
    Spec s (extend id d o) := by
  rcases s.extend_cases id d o with ⟨e, he⟩ | ⟨l, r, db, hr⟩
  · have hr : (extend id d o).run s = ⟨.lease (.error e), s, [s]⟩ := by
      rw [run, he]
      rfl
    exact ⟨by rw [hr]; exact hs, by rw [hr]; rfl, by simp [hr], by rw [hr], by rw [hr]⟩
  · refine ⟨hs.extend_renews hr, ?_, ?_, ?_, ?_⟩
    · have hg := hs.get_renews hr
      simp only [run, Outcome.map, effect, hr.outcome] at hg ⊢
      exact hg
    · intro q hq
      simp only [run, Outcome.map, hr.outcome, List.mem_cons, List.not_mem_nil, or_false] at hq
      rcases hq with rfl | rfl
      · exact .inl rfl
      · refine .inr ?_
        simp only [run, Outcome.map, hr.outcome]
    · simp only [run, Outcome.map, hr.outcome]
    · simp only [run, Outcome.map, hr.outcome]

theorem removes_spec (hs : s.Inv) (h : s.Removes id commits l) :
    (s.remove id commits).store.Inv ∧
      (s.remove id commits).store.get = Function.update s.get id none ∧
      (∀ q ∈ (s.remove id commits).points,
        q.db = s.db ∨ q.db = (s.remove id commits).store.db) ∧
      (s.remove id commits).store.alloc.min = s.alloc.min ∧
      (s.remove id commits).store.alloc.max = s.alloc.max := by
  refine ⟨hs.remove_removes h, hs.get_removes h, ?_, ?_, ?_⟩
  · intro q hq
    simp only [h.outcome, List.mem_cons, List.not_mem_nil, or_false] at hq ⊢
    rcases hq with rfl | rfl | rfl | rfl
    · exact .inl rfl
    · exact .inr rfl
    · exact .inr rfl
    · exact .inr rfl
  · rw [h.outcome]
    rfl
  · rw [h.outcome]
    rfl

theorem spec_revoke (hs : s.Inv) (id : GoString) (commits : Bool) :
    Spec s (revoke id commits) := by
  rcases s.remove_cases id commits with ⟨e, he⟩ | ⟨l, hrem⟩
  · have hr : (revoke id commits).run s = ⟨.done (.error e), s, [s]⟩ := by
      rw [run, Store.revoke, he]
      rfl
    exact ⟨by rw [hr]; exact hs, by rw [hr]; rfl, by simp [hr], by rw [hr], by rw [hr]⟩
  · obtain ⟨hinv, hget, hpts, hmin, hmax⟩ := removes_spec hs hrem
    refine ⟨hinv, ?_, hpts, hmin, hmax⟩
    have hres : (s.remove id commits).result = .ok () := by rw [hrem.outcome]
    simp only [run, Outcome.map, Store.revoke, hres, effect]
    exact hget

theorem spec_markExpired (hs : s.Inv) (id : GoString) (commits : Bool) :
    Spec s (markExpired id commits) := by
  have h := spec_revoke hs id commits
  refine ⟨h.inv, ?_, h.points, h.min, h.max⟩
  rw [show ((markExpired id commits).run s) = ((revoke id commits).run s) from rfl, h.get]
  rcases ((revoke id commits).run s).result with _ | (_ | _) | _ <;> rfl

theorem spec_markExpiredIfBefore (hs : s.Inv) (id : GoString) (cutoff : Time) (commits : Bool) :
    Spec s (markExpiredIfBefore id cutoff commits) := by
  rcases s.markExpiredIfBefore_cases id cutoff commits with ⟨w, e, he⟩ | ⟨l, hrem, _, he⟩
  · have hr : (markExpiredIfBefore id cutoff commits).run s = ⟨.expiry ⟨w, false, e⟩, s, [s]⟩ := by
      rw [run, he]
      rfl
    exact ⟨by rw [hr]; exact hs, by rw [hr]; rfl, by simp [hr], by rw [hr], by rw [hr]⟩
  · have hr : (markExpiredIfBefore id cutoff commits).run s = ⟨.expiry ⟨true, true, none⟩,
        (s.remove id commits).store, (s.remove id commits).points⟩ := by
      rw [run, he]
      rfl
    obtain ⟨hinv, hget, hpts, hmin, hmax⟩ := removes_spec hs hrem
    exact ⟨by rw [hr]; exact hinv, by rw [hr]; exact hget, by rw [hr]; exact hpts,
      by rw [hr]; exact hmin, by rw [hr]; exact hmax⟩

/-- Every call meets its specification when the token it mints is not one of a live lease. -/
theorem spec (hs : s.Inv) (c : Call)
    (ht : ∀ t id l, c.token = some t → s.get id = some l → l.token ≠ t) : Spec s c := by
  cases c with
  | create p env => exact spec_create hs p env ht
  | extend id d o => exact spec_extend hs id d o
  | revoke id commits => exact spec_revoke hs id commits
  | markExpired id commits => exact spec_markExpired hs id commits
  | markExpiredIfBefore id cutoff commits => exact spec_markExpiredIfBefore hs id cutoff commits

/-- The tokens minted by a list of calls. -/
def mints (cs : List Call) : List GoString := cs.filterMap token

def runAll (s : Store) (cs : List Call) : Store := cs.foldl (fun s c => (c.run s).store) s

/-- A lease that is live after a call was live before it, up to its expiry, or the call has
just created it with the token it minted. -/
def Origin (s : Store) (c : Call) (id : GoString) (l : Lease) : Prop :=
  (∃ l', s.get id = some l' ∧ l = { l' with expiresAt := l.expiresAt }) ∨
    s.get id = none ∧ ∃ p env, c = create p env ∧ p.leaseID = id ∧
      mintToken env.rand = some l.token ∧ env.portInUse l.allocatedPort = false ∧
      l = Store.newLease p l.token l.allocatedPort env.now

theorem origin_of_remove (h : (c.run s).store = s ∨
    (c.run s).store.get = Function.update s.get i none)
    (hg : (c.run s).store.get id = some l) : Origin s c id l := by
  left
  refine ⟨l, ?_, rfl⟩
  rcases h with h | h
  · rw [← h, hg]
  · rw [h, Function.update_apply] at hg
    split at hg
    · cases hg
    · exact hg

theorem remove_store (hs : s.Inv) (id : GoString) (commits : Bool) :
    (s.remove id commits).store = s ∨
      (s.remove id commits).store.get = Function.update s.get id none := by
  rcases s.remove_cases id commits with ⟨e, he⟩ | ⟨l, hr⟩
  · exact .inl (by rw [he])
  · exact .inr (hs.get_removes hr)

theorem origin (hs : s.Inv) (hg : (c.run s).store.get id = some l) : Origin s c id l := by
  cases c with
  | create p env =>
    rcases s.create_cases hs.cursor p env with ⟨l', _, he⟩ | ⟨a, hf⟩ | ⟨l', a, db, hc⟩
    · exact .inl ⟨l, by simpa only [run, Outcome.map, he] using hg, rfl⟩
    · have hst : ((create p env).run s).store = { s with alloc := a } := hf.store
      rw [hst] at hg
      exact .inl ⟨l, hg, rfl⟩
    · have hu : ((create p env).run s).store.get = _ := hs.get_commits hc
      rw [hu, Function.update_apply] at hg
      split at hg
      · subst id
        cases hg
        exact .inr ⟨hc.absent, p, env, rfl, rfl, hc.minted, hc.notInUse, hc.lease⟩
      · exact .inl ⟨l, hg, rfl⟩
  | extend i d o =>
    rcases s.extend_cases i d o with ⟨e, he⟩ | ⟨l', r, db, hr⟩
    · exact .inl ⟨l, by simpa only [run, Outcome.map, he] using hg, rfl⟩
    · have hu : ((extend i d o).run s).store.get = _ := hs.get_renews hr
      rw [hu, Function.update_apply] at hg
      split at hg
      · subst id
        cases hg
        exact .inl ⟨l', hr.get, rfl⟩
      · exact .inl ⟨l, hg, rfl⟩
  | revoke i commits => exact origin_of_remove (remove_store hs i commits) hg
  | markExpired i commits => exact origin_of_remove (remove_store hs i commits) hg
  | markExpiredIfBefore i cutoff commits =>
    refine origin_of_remove (i := i) ?_ hg
    rcases s.markExpiredIfBefore_cases i cutoff commits with ⟨w, e, he⟩ | ⟨l', hr, _, he⟩
    · exact .inl (by rw [run, he, Outcome.map])
    · refine .inr ?_
      rw [run, he, Outcome.map]
      exact hs.get_removes hr

/-- A live lease after a call: it is as before, it has been extended, or it has been removed by
a revocation or because its expiry was not after the cutoff. -/
def Fate (s : Store) (c : Call) (id : GoString) (l : Lease) : Prop :=
  (c.run s).store.get id = some l ∨
  (∃ d, c = extend id d .commits ∧
    (c.run s).result = .lease (.ok { l with expiresAt := l.expiresAt + d }) ∧
    (c.run s).store.get id = some { l with expiresAt := l.expiresAt + d }) ∨
  (c.run s).store.get id = none ∧
    (c = revoke id true ∧ (c.run s).result = .done (.ok ()) ∨
      c = markExpired id true ∧ (c.run s).result = .done (.ok ()) ∨
      ∃ cutoff, c = markExpiredIfBefore id cutoff true ∧ l.expiresAt ≤ cutoff ∧
        (c.run s).result = .expiry ⟨true, true, none⟩)

theorem get_remove (hs : s.Inv) (i id : GoString) (commits : Bool) :
    (s.remove i commits).store.get id = s.get id ∨
      i = id ∧ commits = true ∧ (s.remove i commits).result = .ok () ∧
        (s.remove i commits).store.get id = none := by
  rcases s.remove_cases i commits with ⟨e, he⟩ | ⟨l, hr⟩
  · exact .inl (by rw [he])
  · by_cases hi : i = id
    · subst hi
      exact .inr ⟨rfl, hr.committed, by rw [hr.outcome],
        by rw [hs.get_removes hr, Function.update_self]⟩
    · exact .inl (by rw [hs.get_removes hr, Function.update_of_ne (Ne.symm hi)])

theorem fate (hs : s.Inv) (hg : s.get id = some l) : Fate s c id l := by
  cases c with
  | create p env =>
    left
    rcases s.create_cases hs.cursor p env with ⟨l', _, he⟩ | ⟨a, hf⟩ | ⟨l', a, db, hc⟩
    · simpa only [run, Outcome.map, he] using hg
    · have hst : ((create p env).run s).store = { s with alloc := a } := hf.store
      rw [hst]
      exact hg
    · have hu : ((create p env).run s).store.get = _ := hs.get_commits hc
      rw [hu, Function.update_of_ne, hg]
      rintro rfl
      rw [hc.absent] at hg
      cases hg
  | extend i d o =>
    rcases s.extend_cases i d o with ⟨e, he⟩ | ⟨l', r, db, hr⟩
    · exact .inl (by simpa only [run, Outcome.map, he] using hg)
    · have hu : ((extend i d o).run s).store.get = _ := hs.get_renews hr
      by_cases hi : id = i
      · subst hi
        have hl := hr.get
        rw [hg] at hl
        cases hl
        refine .inr (.inl ⟨d, ?_, ?_, by rw [hu, Function.update_self]⟩)
        · rw [hr.commits]
        · simp only [run, Outcome.map, hr.outcome]
      · exact .inl (by rw [hu, Function.update_of_ne hi, hg])
  | revoke i commits =>
    rcases get_remove hs i id commits with h | ⟨rfl, rfl, hr, hn⟩
    · exact .inl (h.trans hg)
    · exact .inr (.inr ⟨hn, .inl ⟨rfl, congrArg Reply.done hr⟩⟩)
  | markExpired i commits =>
    rcases get_remove hs i id commits with h | ⟨rfl, rfl, hr, hn⟩
    · exact .inl (h.trans hg)
    · exact .inr (.inr ⟨hn, .inr (.inl ⟨rfl, congrArg Reply.done hr⟩)⟩)
  | markExpiredIfBefore i cutoff commits =>
    rcases s.markExpiredIfBefore_cases i cutoff commits with ⟨w, e, he⟩ | ⟨l', hr, hl, he⟩
    · exact .inl (by rw [run, he, Outcome.map, hg])
    · have hu : ((markExpiredIfBefore i cutoff commits).run s).store.get =
          Function.update s.get i none := by
        rw [run, he, Outcome.map]
        exact hs.get_removes hr
      by_cases hi : id = i
      · subst hi
        have hl' := hr.get
        rw [hg] at hl'
        cases hl'
        refine .inr (.inr ⟨by rw [hu, Function.update_self], .inr (.inr ⟨cutoff, ?_, hl, ?_⟩)⟩)
        · rw [hr.committed]
        · rw [run, he, Outcome.map]
      · exact .inl (by rw [hu, Function.update_of_ne hi, hg])

theorem Origin.token (h : Origin s c id l) :
    (∃ l', s.get id = some l' ∧ l'.token = l.token) ∨ c.token = some l.token := by
  rcases h with ⟨l', hl', he⟩ | ⟨_, p, env, rfl, _, ht, _⟩
  · exact .inl ⟨l', hl', by rw [he]⟩
  · exact .inr ht

/-- No live lease has one of the tokens. -/
def Fresh (L : Ledger) (ts : List GoString) : Prop := ∀ id l, L id = some l → l.token ∉ ts

theorem spec_of_fresh (hs : s.Inv) (c : Call) (hf : Fresh s.get (c.token.toList ++ ts)) :
    Spec s c := by
  refine spec hs c ?_
  intro t id l ht hl he
  refine hf id l hl (List.mem_append_left _ ?_)
  rw [ht, he]
  exact List.mem_singleton_self t

theorem Fresh.run (hf : Fresh s.get (c.token.toList ++ ts)) (hs : s.Inv)
    (hn : (c.token.toList ++ ts).Nodup) : Fresh (c.run s).store.get ts := by
  intro id l hl
  rcases (origin hs hl).token with ⟨l', hl', he⟩ | ht
  · rw [← he]
    exact fun hm => hf id l' hl' (List.mem_append_right _ hm)
  · rw [ht] at hn
    exact (List.nodup_cons.1 hn).1

theorem mints_cons (c : Call) (cs : List Call) : mints (c :: cs) = c.token.toList ++ mints cs :=
  filterMap_cons_toList token c cs

theorem runAll_inv (hs : s.Inv) (cs : List Call) (hn : (mints cs).Nodup)
    (hf : Fresh s.get (mints cs)) :
    (runAll s cs).Inv ∧ (runAll s cs).alloc.min = s.alloc.min ∧
      (runAll s cs).alloc.max = s.alloc.max := by
  induction cs generalizing s with
  | nil => exact ⟨hs, rfl, rfl⟩
  | cons c cs ih =>
    rw [mints_cons] at hn hf
    have hsp := spec_of_fresh hs c hf
    obtain ⟨hi, hmin, hmax⟩ := ih hsp.inv (List.nodup_append.1 hn).2.1 (hf.run hs hn)
    exact ⟨hi, hmin.trans hsp.min, hmax.trans hsp.max⟩

end Call

namespace Store

variable {s : Store} {min max : Int} {now : Time} {commits : Bool}

theorem Inv.used_eq (hs : s.Inv) :
    s.alloc.used = s.byID.keys.toFinset.image fun id =>
      ((s.get id).map Lease.allocatedPort).getD 0 := by
  ext p
  simp only [hs.ports.used, Finset.mem_image, List.mem_toFinset, GoMap.mem_keys_iff]
  constructor
  · rintro ⟨id, l, hl, hp⟩
    obtain ⟨r, hr, _⟩ := get_eq_some.1 hl
    exact ⟨id, ⟨r, hr⟩, by simp [hl, hp]⟩
  · rintro ⟨id, ⟨r, hr⟩, hp⟩
    obtain ⟨l, hl, _⟩ := hs.indexed.byID hr
    have hg : s.get id = some l := get_eq_some.2 ⟨r, hr, hl⟩
    exact ⟨id, l, hg, by simpa [hg] using hp⟩

theorem Inv.card_used (hs : s.Inv) : s.alloc.used.card = s.byID.size := by
  rw [hs.used_eq, Finset.card_image_of_injOn]
  · rw [List.toFinset_card_of_nodup Std.ExtTreeMap.nodup_keys, Std.ExtTreeMap.length_keys]
  · intro id hid id' hid' he
    rw [Finset.mem_coe, List.mem_toFinset, GoMap.mem_keys_iff] at hid hid'
    obtain ⟨r, hr⟩ := hid
    obtain ⟨r', hr'⟩ := hid'
    obtain ⟨l, hl, _⟩ := hs.indexed.byID hr
    obtain ⟨l', hl', _⟩ := hs.indexed.byID hr'
    have hg := get_eq_some.2 ⟨r, hr, hl⟩
    have hg' := get_eq_some.2 ⟨r', hr', hl'⟩
    simp only [hg, hg', Option.map_some, Option.getD_some] at he
    exact hs.ports.inj hg hg' he

/-- The two indexes, the allocator and the bucket describe the same leases. -/
structure Represents (s : Store) (min max : Int) : Prop where
  indexed : s.Indexed
  port_inj : ∀ {id id' : GoString} {l l' : Lease}, s.get id = some l → s.get id' = some l' →
    l.allocatedPort = l'.allocatedPort → id = id'
  range : ∀ {id : GoString} {l : Lease}, s.get id = some l →
    min ≤ l.allocatedPort ∧ l.allocatedPort ≤ max
  used : ∀ p, p ∈ s.alloc.used ↔ ∃ id l, s.get id = some l ∧ l.allocatedPort = p
  stats : s.stats.1 + s.stats.2 = max - min + 1
  dead : ∀ {id : GoString}, s.get id = none → s.db.rows[id]? = none
  live : ∀ {id : GoString} {l : Lease}, s.get id = some l → ∃ row, s.db.rows[id]? = some row ∧
    row.unmarshal = some { l with leaseID := toValidUTF8 id } ∧
    (row.unmarshal = some l ↔ ValidUTF8 id)

theorem Inv.rows (hs : s.Inv) (id : GoString) : s.db.rows[id]? = (s.get id).map Lease.marshal := by
  obtain ⟨b, hb, hrow⟩ := hs.holds
  rw [DB.rows, hb]
  exact hrow id

theorem Inv.represents (hs : s.Inv) : s.Represents s.alloc.min s.alloc.max := by
  refine ⟨hs.indexed, hs.ports.inj, hs.ports.range, hs.ports.used, ?_, ?_, ?_⟩
  · simp only [Store.stats, PortAllocator.free, hs.card_used]
    omega
  · intro id hid
    rw [hs.rows, hid]
    rfl
  · intro id l hl
    have hown := hs.indexed.own_id hl
    have hu := (hs.clean hl).unmarshal
    refine ⟨l.marshal, by rw [hs.rows, hl]; rfl, by rw [hu, hown], ?_⟩
    rw [hu, hown, Option.some.injEq]
    constructor
    · intro he
      have hi := congrArg Lease.leaseID he
      exact hi.trans hown
    · intro hv
      rw [hv, ← hown]

theorem keeps_empty : DB.empty.Keeps fun _ => none := fun id => GoMap.get_empty id

theorem sound_empty : Ledger.Sound fun _ => none := by
  constructor <;> simp

theorem opened_empty (ho : openStore DB.empty min max now commits = some s) :
    Opened s (fun _ => none) min max now := by
  obtain ⟨s', ho', h⟩ := openStore_spec sound_empty keeps_empty min max now
  cases commits with
  | false => cases ho
  | true =>
    rw [ho'] at ho
    cases ho
    exact h

/-- Along any calls on a store opened on an empty file the four structures agree; a row decodes
to its lease up to the bytes of the id that are not UTF-8. -/
theorem runAll_represents (cs : List Call) (ho : openStore DB.empty min max now commits = some s)
    (hn : (Call.mints cs).Nodup) : (Call.runAll s cs).Represents min max := by
  have h := opened_empty ho
  obtain ⟨hi, hmin, hmax⟩ := Call.runAll_inv h.inv cs hn (by
    intro id l hl
    rw [h.get] at hl
    cases hl)
  have hr := hi.represents
  rwa [hmin, hmax, h.min, h.max] at hr

/-- A create whose caller passes the id `id`; the bind probe finds every port free. -/
def sampleCreate (id : GoString) (key : UInt8) (now : Time) : Call :=
  .create ⟨id, 3600, []⟩ ⟨fun _ => false, some (List.replicate 20 key), now, .commits⟩

theorem runAll_represents_two_creates :
    ∃ s, openStore DB.empty 20000 20001 0 true = some s ∧
      (Call.runAll s [sampleCreate (lit "a") 0 5, .revoke (lit "b") true,
        sampleCreate (lit "b") 1 6]).Represents 20000 20001 := by
  have ho : openStore DB.empty 20000 20001 0 true = some _ := rfl
  exact ⟨_, ho, runAll_represents _ ho (by decide)⟩

/-- Under an id that is not UTF-8 the decoded row is not the lease in memory. -/
theorem row_of_invalid_id :
    ∃ s l row, openStore DB.empty 20000 20001 0 true = some s ∧
      (Call.mints [sampleCreate [0xff] 0 5]).Nodup ∧
      (Call.runAll s [sampleCreate [0xff] 0 5]).get [0xff] = some l ∧
      (Call.runAll s [sampleCreate [0xff] 0 5]).db.rows[[(0xff : UInt8)]]? = some row ∧
      row.unmarshal ≠ some l := by
  refine ⟨_, _, _, rfl, by decide, rfl, rfl, by decide⟩

end Store

end HyruleProxy
