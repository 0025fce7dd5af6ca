import HyruleProxy.Coordinator

namespace HyruleProxy
set_option autoImplicit true

/-- The lease without its token. -/
def Lease.masked (l : Lease) : Lease := { l with token := [] }

theorem Lease.eq_of_masked {l l' : Lease} (h : l.masked = l'.masked) :
    l' = { l with token := l'.token } := by
  cases l
  cases l'
  simp only [masked, mk.injEq] at h
  simp [h]

namespace Store

variable {s s' : Store} {id : GoString} {l l' : Lease} {cutoff : Time}

/-- The stores differ at most in the tokens of their leases. -/
structure Alike (s s' : Store) : Prop where
  bucket : s.db.leases.isSome = s'.db.leases.isSome
  heap : s.heap.map Lease.masked = s'.heap.map Lease.masked
  byID : s.byID = s'.byID
  alloc : s.alloc = s'.alloc

theorem Alike.refl (s : Store) : s.Alike s := ⟨rfl, rfl, rfl, rfl⟩

theorem Alike.deref (h : s.Alike s') (r : Nat) :
    s.heap[r]? = none ∧ s'.heap[r]? = none ∨
      ∃ l l', s.heap[r]? = some l ∧ s'.heap[r]? = some l' ∧ l.masked = l'.masked := by
  have hm := congrArg (fun xs => xs[r]?) h.heap
  simp only [List.getElem?_map] at hm
  cases hl : s.heap[r]? with
  | none =>
    rw [hl, Option.map_none, eq_comm, Option.map_eq_none_iff] at hm
    exact .inl ⟨rfl, hm⟩
  | some l =>
    rw [hl, Option.map_some, eq_comm] at hm
    obtain ⟨l', hl', he⟩ := Option.map_eq_some_iff.1 hm
    exact .inr ⟨l, l', rfl, hl', he.symm⟩

theorem Alike.get (h : s.Alike s') (id : GoString) :
    s.get id = none ∧ s'.get id = none ∨
      ∃ l l', s.get id = some l ∧ s'.get id = some l' ∧ l.masked = l'.masked := by
  rw [Store.get, Store.get, Store.deref, Store.deref, ← h.byID]
  cases s.byID[id]? with
  | none => exact .inl ⟨rfl, rfl⟩
  | some r => exact h.deref r

theorem Alike.persist (h : s.Alike s') (l l' : Lease) (o : Persist) :
    (∃ e, s.persist l o = .error e ∧ s'.persist l' o = .error e) ∨
      ∃ db db', s.persist l o = .ok db ∧ s'.persist l' o = .ok db' ∧
        db.leases.isSome = db'.leases.isSome := by
  have hb := h.bucket
  cases o with
  | marshalFails => exact .inl ⟨_, rfl, rfl⟩
  | updateFails => exact .inl ⟨_, rfl, rfl⟩
  | commits =>
    cases hd : s.db.leases with
    | none =>
      rw [hd, Option.isSome_none, eq_comm, Option.isSome_eq_false_iff,
        Option.isNone_iff_eq_none] at hb
      exact .inl ⟨.bucketMissing, by simp [Store.persist, DB.put, hd],
        by simp [Store.persist, DB.put, hb]⟩
    | some b =>
      rw [hd, Option.isSome_some, eq_comm] at hb
      obtain ⟨b', hb'⟩ := Option.isSome_iff_exists.1 hb
      refine .inr ⟨⟨some (b.insert l.leaseID l.marshal)⟩,
        ⟨some (b'.insert l'.leaseID l'.marshal)⟩, ?_, ?_, rfl⟩
      · simp [Store.persist, DB.put, hd]
      · simp [Store.persist, DB.put, hb']

theorem newLease_masked (p : CreateParams) (t t' : GoString) (port : Int) (now : Time) :
    (newLease p t port now).masked = (newLease p t' port now).masked := rfl

theorem Alike.install {db db' : DB} (h : s.Alike s')
    (hb : db.leases.isSome = db'.leases.isSome) (he : l.masked = l'.masked) :
    (({ s with db := db } : Store).install l).Alike
      (({ s' with db := db' } : Store).install l') := by
  have hlen : s.heap.length = s'.heap.length := by
    have hl := congrArg List.length h.heap
    rwa [List.length_map, List.length_map] at hl
  have hid : l.leaseID = l'.leaseID := by rw [Lease.eq_of_masked he]
  refine ⟨hb, ?_, ?_, h.alloc⟩
  · simp only [Store.install, List.map_append, List.map_singleton, h.heap, he]
  · simp only [Store.install, h.byID, hlen, hid]

theorem Alike.create (h : s.Alike s') (p : CreateParams) (env : CreateEnv)
    {rand : Option (List UInt8)} (hr : rand.isSome = env.rand.isSome) :
    (s.create p env).result.map Lease.masked =
        (s'.create p { env with rand := rand }).result.map Lease.masked ∧
      (s.create p env).store.Alike (s'.create p { env with rand := rand }).store := by
  rw [Store.create, Store.create]
  rcases h.get p.leaseID with ⟨hn, hn'⟩ | ⟨l, l', hl, hl', he⟩
  · rw [hn, hn', ← h.alloc]
    simp only
    split
    · exact ⟨rfl, h⟩
    · split
      · exact ⟨rfl, h.bucket, h.heap, h.byID, rfl⟩
      · rename_i port a _
        have ha : ({ s with alloc := a } : Store).Alike { s' with alloc := a } :=
          ⟨h.bucket, h.heap, h.byID, rfl⟩
        have hfail : ({ s with alloc := a.release port } : Store).Alike
            { s' with alloc := a.release port } := ⟨h.bucket, h.heap, h.byID, rfl⟩
        cases hrand : env.rand with
        | none =>
          rw [hrand, Option.isSome_none, Option.isSome_eq_false_iff,
            Option.isNone_iff_eq_none] at hr
          simp only [hr, mintToken, Option.map_none, true_and]
          exact hfail
        | some buf =>
          rw [hrand, Option.isSome_some] at hr
          obtain ⟨buf', hr⟩ := Option.isSome_iff_exists.1 hr
          simp only [hr, mintToken, Option.map_some]
          rcases ha.persist (newLease p (encodeToString buf) port env.now)
            (newLease p (encodeToString buf') port env.now) env.persist with
            ⟨e, he, he'⟩ | ⟨db, db', hdb, hdb', hb⟩
          · rw [he, he']
            exact ⟨rfl, hfail⟩
          · rw [hdb, hdb']
            exact ⟨rfl, ha.install hb (newLease_masked p _ _ port env.now)⟩
  · rw [hl, hl']
    exact ⟨congrArg Except.ok he, h⟩

theorem Alike.extend (h : s.Alike s') (id : GoString) (d : Duration) (o : Persist) :
    (s.extend id d o).result.map Lease.masked = (s'.extend id d o).result.map Lease.masked ∧
      (s.extend id d o).store.Alike (s'.extend id d o).store := by
  rw [Store.extend, Store.extend, ← h.byID]
  cases s.byID[id]? with
  | none => exact ⟨rfl, h⟩
  | some r =>
    rcases h.deref r with ⟨hn, hn'⟩ | ⟨l, l', hl, hl', he⟩
    · simp only [hn, hn', true_and]
      exact h
    · simp only [hl, hl']
      have hu : ({ l with expiresAt := l.expiresAt + d } : Lease).masked =
          ({ l' with expiresAt := l'.expiresAt + d } : Lease).masked := by
        rw [Lease.eq_of_masked he]
        rfl
      rcases h.persist { l with expiresAt := l.expiresAt + d }
        { l' with expiresAt := l'.expiresAt + d } o with ⟨e, hp, hp'⟩ | ⟨db, db', hp, hp', hb⟩
      · rw [hp, hp']
        exact ⟨rfl, h⟩
      · rw [hp, hp']
        refine ⟨congrArg Except.ok hu, hb, ?_, rfl, h.alloc⟩
        simp only [List.map_set, h.heap, hu]

theorem Alike.remove (h : s.Alike s') (id : GoString) (commits : Bool) :
    (s.remove id commits).result = (s'.remove id commits).result ∧
      (s.remove id commits).store.Alike (s'.remove id commits).store := by
  rw [Store.remove, Store.remove]
  rcases h.get id with ⟨hn, hn'⟩ | ⟨l, l', hl, hl', he⟩
  · rw [hn, hn']
    exact ⟨rfl, h⟩
  · rw [hl, hl']
    cases commits with
    | false => exact ⟨rfl, h⟩
    | true =>
      refine ⟨rfl, ?_, h.heap, ?_, ?_⟩
      · simp only [if_true, DB.delete, Option.isSome_map, h.bucket]
      · simp only [if_true, h.byID]
      · rw [Lease.eq_of_masked he]
        simp only [if_true, h.alloc]

theorem Alike.markExpiredIfBefore (h : s.Alike s') (id : GoString) (cutoff : Time)
    (commits : Bool) :
    (s.markExpiredIfBefore id cutoff commits).result =
        (s'.markExpiredIfBefore id cutoff commits).result ∧
      (s.markExpiredIfBefore id cutoff commits).store.Alike
        (s'.markExpiredIfBefore id cutoff commits).store := by
  obtain ⟨hres, hst⟩ := h.remove id commits
  rw [Store.markExpiredIfBefore, Store.markExpiredIfBefore]
  rcases h.get id with ⟨hn, hn'⟩ | ⟨l, l', hl, hl', he⟩
  · rw [hn, hn']
    exact ⟨rfl, h⟩
  · rw [hl, hl', Lease.eq_of_masked he]
    simp only
    split
    · exact ⟨rfl, h⟩
    · generalize s.remove id commits = r at hres hst
      generalize s'.remove id commits = r' at hres hst
      obtain ⟨res, t, ps⟩ := r
      obtain ⟨res', t', ps'⟩ := r'
      obtain rfl : res = res' := hres
      cases res with
      | error e => exact ⟨rfl, hst⟩
      | ok u => exact ⟨rfl, hst⟩

theorem Alike.expiredBefore (h : s.Alike s') (now : Time) :
    s.expiredBefore now = s'.expiredBefore now := by
  rw [Store.expiredBefore, Store.expiredBefore, ← h.byID]
  apply List.filter_congr
  intro id _
  rcases h.get id with ⟨hn, hn'⟩ | ⟨l, l', hl, hl', he⟩
  · rw [hn, hn']
  · rw [hl, hl', Lease.eq_of_masked he]
    rfl

theorem Alike.list (h : s.Alike s') : s.list.map Lease.masked = s'.list.map Lease.masked := by
  have hmap : ∀ t : Store, t.list.map Lease.masked =
      (t.byID.toList.filterMap fun p => (t.heap.map Lease.masked)[p.2]?).mergeSort
        fun l l' => (compare l.leaseID l'.leaseID).isLE := by
    intro t
    have hsort : ∀ ls : List Lease,
        (ls.mergeSort fun l l' => (compare l.leaseID l'.leaseID).isLE).map Lease.masked =
          (ls.map Lease.masked).mergeSort fun l l' => (compare l.leaseID l'.leaseID).isLE :=
      fun ls => List.map_mergeSort fun _ _ _ _ => rfl
    rw [Store.list, hsort, List.map_filterMap]
    simp only [List.getElem?_map]
  rw [hmap, hmap, h.byID, h.heap]

end Store

theorem sweepLoop_alike {s s' : Store} (h : s.Alike s') (cutoff : Time)
    (commits : GoString → Bool) (ids : List GoString) (reaped : Nat) :
    (sweepLoop cutoff commits ids s reaped).1 = (sweepLoop cutoff commits ids s' reaped).1 ∧
      (sweepLoop cutoff commits ids s reaped).2.Alike
        (sweepLoop cutoff commits ids s' reaped).2 := by
  induction ids generalizing s s' reaped with
  | nil => exact ⟨rfl, h⟩
  | cons id ids ih =>
    obtain ⟨hres, hst⟩ := h.markExpiredIfBefore id cutoff (commits id)
    rw [sweepLoop, sweepLoop, hres]
    split
    · exact ih hst reaped
    · split
      · exact ih hst reaped
      · exact ih hst (reaped + 1)

/-- The answer without the token that a create gives out. -/
def Answer.masked : Answer → Answer
  | .created result => .created (result.map fun r => { r with token := [] })
  | a => a

/-- Equal, or the answers to a create that differ in the token. -/
def Answer.Agrees (a b : Answer) : Prop :=
  a = b ∨ ∃ r token, a = .created (.ok r) ∧ b = .created (.ok { r with token := token })

theorem Answer.agrees_of_masked {a b : Answer} (h : a.masked = b.masked) : a.Agrees b := by
  cases a with
  | created x =>
    cases b with
    | created y =>
      cases x with
      | error e =>
        cases y with
        | error e' =>
          cases h
          exact .inl rfl
        | ok r' => cases h
      | ok r =>
        cases y with
        | error e' => cases h
        | ok r' =>
          refine .inr ⟨r, r'.token, rfl, ?_⟩
          cases r
          cases r'
          simp only [masked, Except.map, created.injEq, Except.ok.injEq,
            LeaseResponse.mk.injEq] at h
          simp [h]
    | _ => cases h
  | _ =>
    cases b with
    | created y => cases h
    | _ => exact .inl h

/-- The same operation under the same circumstances, except for the random bytes of a token. -/
def SameButToken (x y : Control × ControlEnv) : Prop :=
  x.1 = y.1 ∧ ∃ rand, y.2 = { x.2 with rand := rand } ∧ rand.isSome = x.2.rand.isSome

theorem created_masked (cfg : TunnelConfig) (stats : GoString → ConnStats)
    {r r' : Except StoreError Lease} (h : r.map Lease.masked = r'.map Lease.masked) :
    (Answer.created (r.map fun l => toResponse cfg stats l true)).masked =
      (Answer.created (r'.map fun l => toResponse cfg stats l true)).masked := by
  have hmap : ∀ x : Except StoreError Lease,
      (Answer.created (x.map fun l => toResponse cfg stats l true)).masked =
        .created ((x.map Lease.masked).map fun l => toResponse cfg stats l true) := by
    intro x
    cases x <;> rfl
  rw [hmap, hmap, h]

theorem map_toResponse_masked (cfg : TunnelConfig) (stats : GoString → ConnStats)
    {r r' : Except StoreError Lease} (h : r.map Lease.masked = r'.map Lease.masked) :
    (r.map fun l => toResponse cfg stats l false) =
      r'.map fun l => toResponse cfg stats l false := by
  have hmap : ∀ x : Except StoreError Lease, (x.map fun l => toResponse cfg stats l false) =
      (x.map Lease.masked).map fun l => toResponse cfg stats l false := by
    intro x
    cases x <;> rfl
  rw [hmap r, hmap r', h]

/-- One operation on two stores that differ in their tokens. -/
theorem control_alike (cfg : TunnelConfig) {s s' : Store} (h : s.Alike s')
    (hx : SameButToken x y) :
    (control cfg s x.2 x.1).1.masked = (control cfg s' y.2 y.1).1.masked ∧
      (control cfg s x.2 x.1).2.Alike (control cfg s' y.2 y.1).2 := by
  obtain ⟨op, env⟩ := x
  obtain ⟨op', env'⟩ := y
  obtain ⟨rfl, rand, rfl, hr⟩ := hx
  cases op with
  | createLease id seconds cidrs =>
    obtain ⟨hres, hst⟩ := h.create ⟨id, clampDuration cfg seconds, cidrs⟩
      ⟨env.portInUse, env.rand, env.now, env.persist⟩ hr
    exact ⟨created_masked cfg env.stats hres, hst⟩
  | extendLease id seconds =>
    obtain ⟨hres, hst⟩ := h.extend id (clampDuration cfg seconds) env.persist
    exact ⟨congrArg Answer.extended (map_toResponse_masked cfg env.stats hres), hst⟩
  | revokeLease id =>
    obtain ⟨hres, hst⟩ := h.remove id (env.commits id)
    exact ⟨congrArg Answer.revoked hres, hst⟩
  | getLease id =>
    refine ⟨congrArg Answer.found ?_, h⟩
    rcases h.get id with ⟨hn, hn'⟩ | ⟨l, l', hl, hl', he⟩
    · rw [hn, hn']
    · rw [hl, hl', Lease.eq_of_masked he]
      rfl
  | listLeases =>
    refine ⟨congrArg Answer.leases ?_, h⟩
    have hmap : ∀ ls : List Lease, (ls.map fun l => toResponse cfg env.stats l false) =
        (ls.map Lease.masked).map fun l => toResponse cfg env.stats l false := by
      intro ls
      rw [List.map_map]
      rfl
    rw [hmap, hmap s'.list, h.list]
  | health =>
    refine ⟨congrArg Answer.health ?_, h⟩
    simp only [healthResponse, Store.stats, h.byID, h.alloc]
  | sweepExpired =>
    obtain ⟨hn, hst⟩ := sweepLoop_alike h env.now env.commits
      (env.order (s.expiredBefore env.now)) 0
    simp only [control, ← h.expiredBefore]
    exact ⟨congrArg Answer.reaped hn, hst⟩

theorem answers_alike (cfg : TunnelConfig) {s s' : Store} (h : s.Alike s')
    {xs ys : List (Control × ControlEnv)} (hxs : List.Forall₂ SameButToken xs ys) :
    List.Forall₂ Answer.Agrees (answers cfg s xs) (answers cfg s' ys) := by
  induction hxs generalizing s s' with
  | nil => exact .nil
  | cons hx _ ih =>
    obtain ⟨hres, hst⟩ := control_alike cfg h hx
    exact .cons (Answer.agrees_of_masked hres) (ih hst)

/-- Two runs that differ only in the tokens minted give the same answers, up to the token in the
answer to a create. -/
theorem tokens_only_in_create (cfg : TunnelConfig) (s : Store)
    {xs ys : List (Control × ControlEnv)} (hxs : List.Forall₂ SameButToken xs ys) :
    List.Forall₂ Answer.Agrees (answers cfg s xs) (answers cfg s ys) :=
  answers_alike cfg (.refl s) hxs

def mintingEnv (key : UInt8) : ControlEnv :=
  ⟨fun _ => false, some (List.replicate 20 key), 0, .commits, fun _ => true, id,
    fun _ => ⟨false, 0, 0, 0⟩⟩

def mintingOps (key : UInt8) : List (Control × ControlEnv) :=
  [(.createLease (lit "a") 3600 [], mintingEnv key), (.listLeases, mintingEnv key),
    (.revokeLease (lit "a"), mintingEnv key), (.health, mintingEnv key)]

theorem tokens_only_in_create_two :
    encodeToString (List.replicate 20 0) ≠ encodeToString (List.replicate 20 1) ∧
      List.Forall₂ Answer.Agrees
        (answers ⟨lit "tun.hyrule.host", 2222, 3600, 2592000⟩
          ⟨⟨some ∅⟩, [], ∅, ∅, newPortAllocator 20000 20000⟩ (mintingOps 0))
        (answers ⟨lit "tun.hyrule.host", 2222, 3600, 2592000⟩
          ⟨⟨some ∅⟩, [], ∅, ∅, newPortAllocator 20000 20000⟩ (mintingOps 1)) := by
  refine ⟨by decide, tokens_only_in_create _ _ ?_⟩
  have hsame : ∀ op, SameButToken (op, mintingEnv 0) (op, mintingEnv 1) :=
    fun op => ⟨rfl, some (List.replicate 20 1), rfl, rfl⟩
  exact .cons (hsame _) (.cons (hsame _) (.cons (hsame _) (.cons (hsame _) .nil)))

end HyruleProxy
