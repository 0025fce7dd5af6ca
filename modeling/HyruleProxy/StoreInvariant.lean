import HyruleProxy.Ledger

namespace HyruleProxy
set_option autoImplicit true

namespace Store

variable {s : Store} {id id' t : GoString} {r r' : Nat} {l l' : Lease}

/-- Both indexes point to the same leases, each under its own id and its own token. -/
structure Indexed (s : Store) : Prop where
  byID : ∀ {id : GoString} {r : Nat}, s.byID[id]? = some r →
    ∃ l : Lease, s.heap[r]? = some l ∧ l.leaseID = id ∧ s.byToken[l.token]? = some r
  byToken : ∀ {t : GoString} {r : Nat}, s.byToken[t]? = some r →
    ∃ l : Lease, s.heap[r]? = some l ∧ l.token = t ∧ s.byID[l.leaseID]? = some r

theorem get_eq_some :
    s.get id = some l ↔ ∃ r, s.byID[id]? = some r ∧ s.heap[r]? = some l := by
  simp only [get, deref, Option.bind_eq_some_iff]

theorem Indexed.get_none (h : s.Indexed) (hg : s.get id = none) :
    s.byID[id]? = none := by
  cases hr : s.byID[id]? with
  | none => rfl
  | some r =>
    obtain ⟨l, hl, _⟩ := h.byID hr
    rw [get_eq_some.2 ⟨r, hr, hl⟩] at hg
    cases hg

theorem Indexed.own_id (h : s.Indexed) (hg : s.get id = some l) :
    l.leaseID = id := by
  obtain ⟨r, hr, hl⟩ := get_eq_some.1 hg
  obtain ⟨l', hl', hid, _⟩ := h.byID hr
  rw [hl] at hl'
  cases hl'
  exact hid

theorem Indexed.token_live (h : s.Indexed) (ht : s.byToken[t]? = some r) :
    ∃ id l, s.get id = some l ∧ l.token = t := by
  obtain ⟨l, hl, hlt, hid⟩ := h.byToken ht
  exact ⟨l.leaseID, l, get_eq_some.2 ⟨r, hid, hl⟩, hlt⟩

theorem Indexed.token_inj (h : s.Indexed) (hg : s.get id = some l)
    (hg' : s.get id' = some l') (ht : l.token = l'.token) : id = id' := by
  obtain ⟨r, hr, hl⟩ := get_eq_some.1 hg
  obtain ⟨r', hr', hl'⟩ := get_eq_some.1 hg'
  obtain ⟨l₁, hl₁, hid₁, ht₁⟩ := h.byID hr
  obtain ⟨l₂, hl₂, hid₂, ht₂⟩ := h.byID hr'
  rw [hl] at hl₁
  rw [hl'] at hl₂
  cases hl₁
  cases hl₂
  rw [ht, ht₂] at ht₁
  cases ht₁
  rw [hl] at hl'
  cases hl'
  exact hid₁.symm.trans hid₂

theorem heap_lt (hl : s.heap[r]? = some l) : r < s.heap.length :=
  (List.getElem?_eq_some_iff.1 hl).1

theorem heap_install (l : Lease) (hl : s.heap[r]? = some l') :
    (s.install l).heap[r]? = some l' := by
  rw [install, List.getElem?_append_left (heap_lt hl), hl]

theorem heap_install_self (l : Lease) :
    (s.install l).heap[s.heap.length]? = some l := by
  simp [install]

theorem byID_install (s : Store) (l : Lease) (id : GoString) :
    (s.install l).byID[id]? = if l.leaseID = id then some s.heap.length else s.byID[id]? :=
  GoMap.get_insert s.byID l.leaseID id s.heap.length

theorem byToken_install (s : Store) (l : Lease) (t : GoString) :
    (s.install l).byToken[t]? = if l.token = t then some s.heap.length else s.byToken[t]? :=
  GoMap.get_insert s.byToken l.token t s.heap.length

theorem Indexed.get_install (h : s.Indexed) (l : Lease) :
    (s.install l).get = Function.update s.get l.leaseID (some l) := by
  funext id
  by_cases hid : l.leaseID = id
  · subst hid
    rw [Function.update_self, get_eq_some]
    exact ⟨s.heap.length, by rw [byID_install, if_pos rfl], heap_install_self l⟩
  · rw [Function.update_of_ne (Ne.symm hid), get, deref, byID_install, if_neg hid]
    cases hr : s.byID[id]? with
    | none => simp only [get, deref, hr, Option.bind_none]
    | some r =>
      obtain ⟨l', hl', _⟩ := h.byID hr
      simp only [get, deref, hr, Option.bind_some]
      rw [heap_install l hl', hl']

theorem Indexed.install (h : s.Indexed) (hid : s.get l.leaseID = none)
    (ht : ∀ id l', s.get id = some l' → l'.token ≠ l.token) : (s.install l).Indexed := by
  have hid' := h.get_none hid
  constructor
  · intro id r hr
    rw [byID_install] at hr
    split at hr
    · cases hr
      refine ⟨l, heap_install_self l, by assumption, ?_⟩
      rw [byToken_install, if_pos rfl]
    · obtain ⟨l', hl', hown, htok⟩ := h.byID hr
      refine ⟨l', heap_install l hl', hown, ?_⟩
      rw [byToken_install, if_neg, htok]
      exact Ne.symm (ht id l' (get_eq_some.2 ⟨r, hr, hl'⟩))
  · intro t r hr
    rw [byToken_install] at hr
    split at hr
    · cases hr
      refine ⟨l, heap_install_self l, by assumption, ?_⟩
      rw [byID_install, if_pos rfl]
    · obtain ⟨l', hl', htok, hown⟩ := h.byToken hr
      refine ⟨l', heap_install l hl', htok, ?_⟩
      rw [byID_install, if_neg, hown]
      intro he
      rw [← he, hid'] at hown
      cases hown

/-- The lease leaves both indexes; its cell stays on the heap. -/
def uninstall (s : Store) (l : Lease) : Store :=
  { s with byID := s.byID.erase l.leaseID, byToken := s.byToken.erase l.token }

theorem byID_uninstall (s : Store) (l : Lease) (id : GoString) :
    (s.uninstall l).byID[id]? = if l.leaseID = id then none else s.byID[id]? :=
  GoMap.get_erase s.byID l.leaseID id

theorem byToken_uninstall (s : Store) (l : Lease) (t : GoString) :
    (s.uninstall l).byToken[t]? = if l.token = t then none else s.byToken[t]? :=
  GoMap.get_erase s.byToken l.token t

theorem get_uninstall (s : Store) (l : Lease) :
    (s.uninstall l).get = Function.update s.get l.leaseID none := by
  funext id
  by_cases hid : l.leaseID = id
  · subst hid
    rw [Function.update_self, get, byID_uninstall, if_pos rfl]
    rfl
  · rw [Function.update_of_ne (Ne.symm hid), get, byID_uninstall, if_neg hid]
    rfl

theorem Indexed.uninstall (h : s.Indexed) (hg : s.get id = some l) :
    (s.uninstall l).Indexed := by
  constructor
  · intro id' r hr
    rw [byID_uninstall] at hr
    split at hr
    · cases hr
    · rename_i hne
      obtain ⟨l', hl', hown, htok⟩ := h.byID hr
      refine ⟨l', hl', hown, ?_⟩
      rw [byToken_uninstall, if_neg, htok]
      intro he
      have hi := h.token_inj hg (get_eq_some.2 ⟨r, hr, hl'⟩) he
      exact hne ((h.own_id hg).trans hi)
  · intro t r hr
    rw [byToken_uninstall] at hr
    split at hr
    · cases hr
    · rename_i hne
      obtain ⟨l', hl', htok, hown⟩ := h.byToken hr
      refine ⟨l', hl', htok, ?_⟩
      rw [byID_uninstall, if_neg, hown]
      intro he
      have hg' := get_eq_some.2 ⟨r, hown, hl'⟩
      rw [← he, h.own_id hg, hg] at hg'
      cases hg'
      exact hne htok

theorem heap_set_cell (l' : Lease) {l₁ : Lease} (hl : s.heap[r]? = some l)
    (hid : l'.leaseID = l.leaseID) (ht : l'.token = l.token) (h₁ : s.heap[r']? = some l₁) :
    ∃ l₂, (s.heap.set r l')[r']? = some l₂ ∧ l₂.leaseID = l₁.leaseID ∧ l₂.token = l₁.token := by
  by_cases he : r = r'
  · subst he
    rw [hl] at h₁
    cases h₁
    exact ⟨l', List.getElem?_set_self (heap_lt hl), hid, ht⟩
  · exact ⟨l₁, by rw [List.getElem?_set_ne he, h₁], rfl, rfl⟩

theorem Indexed.set (h : s.Indexed)
    (hl : s.heap[r]? = some l) (hid : l'.leaseID = l.leaseID) (ht : l'.token = l.token) :
    ({ s with heap := s.heap.set r l' } : Store).Indexed := by
  constructor
  · intro id' r' hr'
    obtain ⟨l₁, hl₁, hown, htok⟩ := h.byID hr'
    obtain ⟨l₂, hl₂, hid₂, ht₂⟩ := heap_set_cell l' hl hid ht hl₁
    exact ⟨l₂, hl₂, hid₂.trans hown, by rw [ht₂]; exact htok⟩
  · intro t r' hr'
    obtain ⟨l₁, hl₁, htok, hown⟩ := h.byToken hr'
    obtain ⟨l₂, hl₂, hid₂, ht₂⟩ := heap_set_cell l' hl hid ht hl₁
    exact ⟨l₂, hl₂, ht₂.trans htok, by rw [hid₂]; exact hown⟩

theorem Indexed.get_set (h : s.Indexed) (hr : s.byID[id]? = some r)
    (hl : s.heap[r]? = some l) (l' : Lease) :
    ({ s with heap := s.heap.set r l' } : Store).get = Function.update s.get id (some l') := by
  funext id'
  by_cases hid : id = id'
  · subst hid
    rw [Function.update_self, get_eq_some]
    exact ⟨r, hr, List.getElem?_set_self (heap_lt hl)⟩
  · rw [Function.update_of_ne (Ne.symm hid)]
    simp only [get, deref]
    cases hr' : s.byID[id']? with
    | none => rfl
    | some r' =>
      have hne : r ≠ r' := by
        intro he
        subst he
        have h₁ := h.own_id (get_eq_some.2 ⟨r, hr, hl⟩)
        have h₂ := h.own_id (get_eq_some.2 ⟨r, hr', hl⟩)
        exact hid (h₁.symm.trans h₂)
      simp only [Option.bind_some, List.getElem?_set_ne hne]

/-- The invariant of the lease store. -/
structure Inv (s : Store) : Prop where
  indexed : s.Indexed
  ports : Ledger.Ports s.get s.alloc
  cursor : s.alloc.InRange
  holds : s.db.Holds s.get
  clean : ∀ {id : GoString} {l : Lease}, s.get id = some l → l.Clean

variable {p : CreateParams} {env : CreateEnv} {a : PortAllocator} {db : DB} {o : Persist}
  {d : Duration} {commits : Bool}

theorem persist_cases (s : Store) (l : Lease) (o : Persist) :
    (∃ e, s.persist l o = .error e) ∨
      ∃ db, o = .commits ∧ s.db.put l.leaseID l.marshal = some db ∧ s.persist l o = .ok db := by
  cases o with
  | marshalFails => exact .inl ⟨_, rfl⟩
  | updateFails => exact .inl ⟨_, rfl⟩
  | commits =>
    cases h : s.db.put l.leaseID l.marshal with
    | none => exact .inl ⟨.bucketMissing, by rw [persist, h]⟩
    | some db => exact .inr ⟨db, rfl, rfl, by rw [persist, h]⟩

/-- What `Create` does when it makes a new lease. -/
structure Commits (s : Store) (p : CreateParams) (env : CreateEnv) (l : Lease)
    (a : PortAllocator) (db : DB) : Prop where
  absent : s.get p.leaseID = none
  parsed : ∀ c ∈ p.allowlistCIDRs, (parseCIDR c).isSome
  minted : mintToken env.rand = some l.token
  lease : l = newLease p l.token l.allocatedPort env.now
  range : s.alloc.min ≤ l.allocatedPort ∧ l.allocatedPort ≤ s.alloc.max
  unused : l.allocatedPort ∉ s.alloc.used
  notInUse : env.portInUse l.allocatedPort = false
  cursor : a.InRange
  alloc : a = { s.alloc with next := a.next, used := insert l.allocatedPort s.alloc.used }
  put : s.db.put p.leaseID l.marshal = some db
  outcome : s.create p env = ⟨.ok l, ({ s with alloc := a, db := db } : Store).install l,
    [s, { s with alloc := a }, { s with alloc := a, db := db }]⟩

/-- What `Create` does when it fails: at most the cursor of the allocator moves. -/
structure Fails (s : Store) (p : CreateParams) (env : CreateEnv) (a : PortAllocator) : Prop where
  absent : s.get p.leaseID = none
  result : ∃ e, (s.create p env).result = .error e
  cursor : a.InRange
  alloc : a = { s.alloc with next := a.next }
  store : (s.create p env).store = { s with alloc := a }
  points : ∀ q ∈ (s.create p env).points, q.db = s.db

theorem create_cases (hc : s.alloc.InRange) (p : CreateParams) (env : CreateEnv) :
    (∃ l, s.get p.leaseID = some l ∧ s.create p env = ⟨.ok l, s, [s]⟩) ∨
      (∃ a, s.Fails p env a) ∨ ∃ l a db, s.Commits p env l a db := by
  cases hg : s.get p.leaseID with
  | some l => exact .inl ⟨l, rfl, by simp only [create, hg]⟩
  | none =>
    right
    cases hf : p.allowlistCIDRs.find? fun c => (parseCIDR c).isNone with
    | some c =>
      have he : s.create p env = ⟨.error (.invalidCIDR c), s, [s]⟩ := by
        simp only [create, hg, hf]
      exact .inl ⟨s.alloc, hg, ⟨_, by rw [he]⟩, hc, rfl, by rw [he], by simp [he]⟩
    | none =>
      have hs := s.alloc.allocate_spec env.portInUse hc
      rcases ha : s.alloc.allocate env.portInUse with ⟨_ | port, a⟩
      · rw [ha] at hs
        have he : s.create p env = ⟨.error .portsExhausted, { s with alloc := a }, [s]⟩ := by
          simp only [create, hg, hf, ha]
        exact .inl ⟨a, hg, ⟨_, by rw [he]⟩, hs.1, hs.2, by rw [he], by simp [he]⟩
      · rw [ha] at hs
        obtain ⟨hmin, hmax, hu, hb, hcur, hal⟩ := hs
        have hrel : (a.release port).InRange ∧
            a.release port = { s.alloc with next := (a.release port).next } := by
          refine ⟨hcur, ?_⟩
          rw [hal]
          simp only [PortAllocator.release, Finset.erase_insert hu]
        cases hm : mintToken env.rand with
        | none =>
          have he : s.create p env = ⟨.error .mintToken, { s with alloc := a.release port },
              [s, { s with alloc := a }]⟩ := by
            simp only [create, hg, hf, ha, hm]
          exact .inl ⟨_, hg, ⟨_, by rw [he]⟩, hrel.1, hrel.2, by rw [he], by simp [he]⟩
        | some token =>
          rcases persist_cases ({ s with alloc := a } : Store)
            (newLease p token port env.now) env.persist with ⟨e, hp⟩ | ⟨db, _, hput, hp⟩
          · have he : s.create p env = ⟨.error e, { s with alloc := a.release port },
                [s, { s with alloc := a }]⟩ := by
              simp only [create, hg, hf, ha, hm, hp]
            exact .inl ⟨_, hg, ⟨_, by rw [he]⟩, hrel.1, hrel.2, by rw [he], by simp [he]⟩
          · refine .inr ⟨newLease p token port env.now, a, db, hg, ?_, hm, rfl, ⟨hmin, hmax⟩, hu,
              hb, hcur, hal, hput, ?_⟩
            · intro c hc'
              have hn := List.find?_eq_none.1 hf c hc'
              simpa [Option.isSome_iff_ne_none] using hn
            · simp only [create, hg, hf, ha, hm, hp]

theorem Commits.clean (h : s.Commits p env l a db) : l.Clean := by
  rw [h.lease]
  exact ⟨rfl, (mintToken_ascii h.minted).validUTF8, fun c hc =>
    (parseCIDR_ascii (h.parsed c hc)).validUTF8⟩

theorem Commits.leaseID (h : s.Commits p env l a db) : l.leaseID = p.leaseID := by
  rw [h.lease]
  rfl

theorem Inv.get_commits (hs : s.Inv) (h : s.Commits p env l a db) :
    (s.create p env).store.get = Function.update s.get p.leaseID (some l) := by
  rw [h.outcome, ← h.leaseID]
  exact Indexed.get_install (s := { s with alloc := a, db := db })
    ⟨hs.indexed.byID, hs.indexed.byToken⟩ l

theorem Inv.create_commits (hs : s.Inv) (h : s.Commits p env l a db)
    (ht : ∀ id l', s.get id = some l' → l'.token ≠ l.token) : (s.create p env).store.Inv := by
  have hg := hs.get_commits h
  have hid := h.leaseID
  constructor
  · rw [h.outcome]
    exact Indexed.install (s := { s with alloc := a, db := db })
      ⟨hs.indexed.byID, hs.indexed.byToken⟩ (by rw [hid]; exact h.absent) ht
  · rw [hg, h.outcome]
    have hp := hs.ports.insert h.absent h.range h.unused
    have ha := h.alloc
    generalize a.next = next at ha
    subst ha
    exact hp.cursor next
  · rw [h.outcome]
    exact h.cursor
  · rw [hg, h.outcome]
    exact hs.holds.put h.put
  · intro id l₁ h₁
    rw [hg, Function.update_apply] at h₁
    split at h₁
    · cases h₁
      exact h.clean
    · exact hs.clean h₁

theorem Inv.cursor_moves (hs : s.Inv) (hc : a.InRange) (ha : a = { s.alloc with next := a.next }) :
    ({ s with alloc := a } : Store).Inv := by
  refine ⟨⟨hs.indexed.byID, hs.indexed.byToken⟩, ?_, hc, hs.holds, hs.clean⟩
  have hp := hs.ports.cursor a.next
  rw [← ha] at hp
  exact hp

/-- What `Extend` does when it commits. -/
structure Renews (s : Store) (id : GoString) (d : Duration) (o : Persist) (l : Lease) (r : Nat)
    (db : DB) : Prop where
  ref : s.byID[id]? = some r
  cell : s.heap[r]? = some l
  commits : o = .commits
  put : s.db.put l.leaseID { l with expiresAt := l.expiresAt + d }.marshal = some db
  outcome : s.extend id d o = ⟨.ok { l with expiresAt := l.expiresAt + d },
    { s with db := db, heap := s.heap.set r { l with expiresAt := l.expiresAt + d } },
    [s, { s with db := db }]⟩

theorem extend_cases (s : Store) (id : GoString) (d : Duration) (o : Persist) :
    (∃ e, s.extend id d o = ⟨.error e, s, [s]⟩) ∨ ∃ l r db, s.Renews id d o l r db := by
  cases hr : s.byID[id]? with
  | none => exact .inl ⟨.notFound, by simp only [extend, hr]⟩
  | some r =>
    cases hl : s.heap[r]? with
    | none => exact .inl ⟨.notFound, by simp only [extend, hr, hl]⟩
    | some l =>
      rcases persist_cases s { l with expiresAt := l.expiresAt + d } o with
        ⟨e, hp⟩ | ⟨db, ho, hput, hp⟩
      · exact .inl ⟨e, by simp only [extend, hr, hl, hp]⟩
      · exact .inr ⟨l, r, db, hr, hl, ho, hput, by simp only [extend, hr, hl, hp]⟩

theorem Inv.get_renews (hs : s.Inv) (h : s.Renews id d o l r db) :
    (s.extend id d o).store.get =
      Function.update s.get id (some { l with expiresAt := l.expiresAt + d }) := by
  rw [h.outcome]
  exact Indexed.get_set (s := { s with db := db }) ⟨hs.indexed.byID, hs.indexed.byToken⟩ h.ref
    h.cell _

theorem Renews.get (h : s.Renews id d o l r db) : s.get id = some l :=
  get_eq_some.2 ⟨r, h.ref, h.cell⟩

theorem Inv.extend_renews (hs : s.Inv) (h : s.Renews id d o l r db) :
    (s.extend id d o).store.Inv := by
  have hg := hs.get_renews h
  have hown := hs.indexed.own_id h.get
  constructor
  · rw [h.outcome]
    exact Indexed.set (s := { s with db := db }) ⟨hs.indexed.byID, hs.indexed.byToken⟩ h.cell
      rfl rfl
  · rw [hg, h.outcome]
    exact hs.ports.replace h.get rfl
  · rw [h.outcome]
    exact hs.cursor
  · rw [hg, h.outcome, ← hown]
    exact hs.holds.put h.put
  · intro i l₁ h₁
    rw [hg, Function.update_apply] at h₁
    split at h₁
    · cases h₁
      have hc := hs.clean h.get
      exact ⟨hc.active, hc.token, hc.allowlist⟩
    · exact hs.clean h₁

/-- What `remove` does when it commits. -/
structure Removes (s : Store) (id : GoString) (commits : Bool) (l : Lease) : Prop where
  get : s.get id = some l
  outcome : s.remove id commits = ⟨.ok (),
    { s with
      db := s.db.delete id
      byID := s.byID.erase id
      byToken := s.byToken.erase l.token
      alloc := s.alloc.release l.allocatedPort },
    [s, { s with db := s.db.delete id },
      { s with db := s.db.delete id, byID := s.byID.erase id },
      { s with db := s.db.delete id, byID := s.byID.erase id, byToken := s.byToken.erase l.token }]⟩

theorem remove_cases (s : Store) (id : GoString) (commits : Bool) :
    (∃ e, s.remove id commits = ⟨.error e, s, [s]⟩) ∨ ∃ l, s.Removes id commits l := by
  cases hg : s.get id with
  | none => exact .inl ⟨.notFound, by simp only [remove, hg]⟩
  | some l =>
    cases commits with
    | false => exact .inl ⟨.update, by simp only [remove, hg]; rfl⟩
    | true => exact .inr ⟨l, hg, by simp only [remove, hg]; rfl⟩

theorem Removes.committed (h : s.Removes id commits l) : commits = true := by
  cases commits with
  | true => rfl
  | false =>
    have ho := h.outcome
    simp only [remove, h.get, Bool.false_eq_true, if_false] at ho
    cases ho

theorem markExpiredIfBefore_cases (s : Store) (id : GoString) (cutoff : Time) (commits : Bool) :
    (∃ w e, s.markExpiredIfBefore id cutoff commits = ⟨⟨w, false, e⟩, s, [s]⟩) ∨
      ∃ l, s.Removes id commits l ∧ l.expiresAt ≤ cutoff ∧
        s.markExpiredIfBefore id cutoff commits =
          ⟨⟨true, true, none⟩, (s.remove id commits).store, (s.remove id commits).points⟩ := by
  cases hg : s.get id with
  | none => exact .inl ⟨false, none, by simp only [markExpiredIfBefore, hg]⟩
  | some l =>
    by_cases hl : cutoff < l.expiresAt
    · exact .inl ⟨false, none, by simp only [markExpiredIfBefore, hg, if_pos hl]⟩
    · rcases s.remove_cases id commits with ⟨e, he⟩ | ⟨l', hr⟩
      · exact .inl ⟨true, some e, by simp only [markExpiredIfBefore, hg, if_neg hl, he]⟩
      · have hl' := hr.get
        rw [hg] at hl'
        cases hl'
        refine .inr ⟨l, hr, not_lt.1 hl, ?_⟩
        simp only [markExpiredIfBefore, hg, if_neg hl, hr.outcome]

theorem Inv.removes_eq (hs : s.Inv) (h : s.Removes id commits l) :
    (s.remove id commits).store = { s.uninstall l with
      db := s.db.delete id
      alloc := s.alloc.release l.allocatedPort } := by
  rw [h.outcome, uninstall, hs.indexed.own_id h.get]

theorem Inv.get_removes (hs : s.Inv) (h : s.Removes id commits l) :
    (s.remove id commits).store.get = Function.update s.get id none := by
  rw [hs.removes_eq h, ← hs.indexed.own_id h.get]
  exact get_uninstall s l

theorem Inv.remove_removes (hs : s.Inv) (h : s.Removes id commits l) :
    (s.remove id commits).store.Inv := by
  have hg := hs.get_removes h
  constructor
  · rw [hs.removes_eq h]
    have hi := hs.indexed.uninstall h.get
    exact ⟨hi.byID, hi.byToken⟩
  · rw [hg, hs.removes_eq h]
    exact hs.ports.erase h.get
  · rw [hs.removes_eq h]
    exact hs.cursor
  · rw [hg, hs.removes_eq h]
    exact hs.holds.delete id
  · intro i l₁ h₁
    rw [hg, Function.update_apply] at h₁
    split at h₁
    · cases h₁
    · exact hs.clean h₁

end Store

end HyruleProxy
