import HyruleProxy.StoreInvariant

namespace HyruleProxy
set_option autoImplicit true

/-- Whether a lease is taken over by `Open` with this range at this time. -/
def Lease.kept (min max : Int) (now : Time) (l : Lease) : Bool :=
  !l.expired now && decide (min ≤ l.allocatedPort) && decide (l.allocatedPort ≤ max)

def Ledger.reopen (L : Ledger) (min max : Int) (now : Time) : Ledger :=
  fun id => (L id).filter (Lease.kept min max now)

/-- A ledger whose leases survive the round trip through the database and can be indexed. -/
structure Ledger.Sound (L : Ledger) : Prop where
  own_id : ∀ {id : GoString} {l : Lease}, L id = some l → l.leaseID = id
  valid : ∀ {id : GoString} {l : Lease}, L id = some l → ValidUTF8 id
  clean : ∀ {id : GoString} {l : Lease}, L id = some l → l.Clean
  port_inj : ∀ {id id' : GoString} {l l' : Lease}, L id = some l → L id' = some l' →
    l.allocatedPort = l'.allocatedPort → id = id'
  token_inj : ∀ {id id' : GoString} {l l' : Lease}, L id = some l → L id' = some l' →
    l.token = l'.token → id = id'

/-- The rows of a database file, which has none before its bucket exists. -/
def DB.rows (db : DB) : GoMap GoString Row := db.leases.getD ∅

/-- The file holds one row for each lease of the ledger; its bucket may not exist yet. -/
def DB.Keeps (db : DB) (L : Ledger) : Prop := ∀ id, db.rows[id]? = (L id).map Lease.marshal

section Open

variable {L : Ledger} {min max : Int} {now : Time} {id k : GoString} {l : Lease}
  {acc : Store × List GoString} {keys : List GoString} {db : DB}

theorem Ledger.reopen_eq_some :
    L.reopen min max now id = some l ↔ L id = some l ∧ l.kept min max now := by
  simp only [Ledger.reopen, Option.filter_eq_some_iff]

theorem Ledger.Sound.reopen (h : L.Sound) : (L.reopen min max now).Sound := by
  constructor
  · intro id l hl
    exact h.own_id (reopen_eq_some.1 hl).1
  · intro id l hl
    exact h.valid (reopen_eq_some.1 hl).1
  · intro id l hl
    exact h.clean (reopen_eq_some.1 hl).1
  · intro id id' l l' hl hl' hp
    exact h.port_inj (reopen_eq_some.1 hl).1 (reopen_eq_some.1 hl').1 hp
  · intro id id' l l' hl hl' ht
    exact h.token_inj (reopen_eq_some.1 hl).1 (reopen_eq_some.1 hl').1 ht

theorem Lease.kept_range (h : l.kept min max now) :
    min ≤ l.allocatedPort ∧ l.allocatedPort ≤ max := by
  simp only [Lease.kept, Bool.and_eq_true, decide_eq_true_eq] at h
  exact ⟨h.1.2, h.2⟩

theorem Ledger.Sound.rehydrate (h : L.Sound) (hl : L id = some l) :
    rehydrate min max now l.marshal = if l.kept min max now then some l else none := by
  have hv : ValidUTF8 l.leaseID := by
    rw [h.own_id hl]
    exact h.valid hl
  have hc := h.clean hl
  simp only [HyruleProxy.rehydrate, hc.unmarshal_valid hv, hc.active, Lease.kept]
  by_cases he : l.expired now
  · simp [he]
  · by_cases hp : min ≤ l.allocatedPort ∧ l.allocatedPort ≤ max
    · simp [he, hp, not_lt.2 hp.1, not_lt.2 hp.2]
    · have hout : l.allocatedPort < min ∨ l.allocatedPort > max := by omega
      simp only [he, hout]
      grind

/-- What the loop of `Open` has built once it has visited some of the keys. -/
structure Loading (L : Ledger) (min max : Int) (now : Time) (keys : List GoString)
    (acc : Store × List GoString) : Prop where
  indexed : acc.1.Indexed
  ports : Ledger.Ports acc.1.get acc.1.alloc
  alloc : acc.1.alloc = { newPortAllocator min max with used := acc.1.alloc.used }
  get : ∀ id, acc.1.get id = if id ∈ keys then L.reopen min max now id else none
  stale : ∀ id, id ∈ acc.2 ↔ id ∈ keys ∧ L.reopen min max now id = none

theorem Loading.sub (h : Loading L min max now keys acc) (hg : acc.1.get id = some l) :
    L id = some l := by
  rw [h.get] at hg
  split at hg
  · exact (Ledger.reopen_eq_some.1 hg).1
  · cases hg

theorem Loading.skip (h : Loading L min max now keys acc) (hk : L.reopen min max now k = none) :
    Loading L min max now (k :: keys) (acc.1, acc.2 ++ [k]) := by
  refine ⟨h.indexed, h.ports, h.alloc, ?_, ?_⟩
  · intro id
    rw [h.get]
    by_cases hid : id = k
    · simp [hid, hk]
    · simp [hid]
  · intro id
    rw [List.mem_append, h.stale, List.mem_singleton, List.mem_cons]
    by_cases hid : id = k
    · simp [hid, hk]
    · simp [hid]

theorem Loading.install (h : Loading L min max now keys acc) (hs : L.Sound)
    (hk : L k = some l) (hl : l.kept min max now) (hnew : k ∉ keys) :
    Loading L min max now (k :: keys)
      ({ acc.1.install l with alloc := acc.1.alloc.reserve l.allocatedPort }, acc.2) := by
  have hid := hs.own_id hk
  have hkept : L.reopen min max now k = some l := Ledger.reopen_eq_some.2 ⟨hk, hl⟩
  have hnone : acc.1.get k = none := by rw [h.get, if_neg hnew]
  have hr : acc.1.alloc.min ≤ l.allocatedPort ∧ l.allocatedPort ≤ acc.1.alloc.max := by
    rw [h.alloc]
    exact Lease.kept_range hl
  have hother : ∀ id l', acc.1.get id = some l' → id ≠ k := by
    rintro id l' hl' rfl
    rw [hnone] at hl'
    cases hl'
  have hunused : l.allocatedPort ∉ acc.1.alloc.used := by
    intro hu
    obtain ⟨id, l', hl', hp⟩ := (h.ports.used _).1 hu
    exact hother id l' hl' (hs.port_inj (h.sub hl') hk hp)
  have hget : ({ acc.1.install l with alloc := acc.1.alloc.reserve l.allocatedPort } : Store).get =
      Function.update acc.1.get k (some l) := by
    rw [← hid]
    exact h.indexed.get_install l
  refine ⟨?_, ?_, ?_, ?_, ?_⟩
  · have hi := h.indexed.install (l := l) (by rw [hid]; exact hnone) (by
      intro id l' hl' ht
      exact hother id l' hl' (hs.token_inj (h.sub hl') hk ht))
    exact ⟨hi.byID, hi.byToken⟩
  · rw [hget, PortAllocator.reserve, if_pos hr]
    exact h.ports.insert hnone hr hunused
  · simp only [PortAllocator.reserve, if_pos hr]
    rw [h.alloc]
  · intro id
    rw [hget, Function.update_apply, h.get]
    by_cases hid : id = k
    · simp [hid, hkept]
    · simp [hid]
  · intro id
    rw [h.stale, List.mem_cons]
    by_cases hid : id = k
    · simp [hid, hnew, hkept]
    · simp [hid]

theorem Loading.loadRow (h : Loading L min max now keys acc) (hs : L.Sound) (hk : L k = some l)
    (hnew : k ∉ keys) :
    Loading L min max now (k :: keys) (loadRow min max now acc (k, l.marshal)) := by
  rw [HyruleProxy.loadRow, hs.rehydrate hk]
  by_cases hl : l.kept min max now
  · rw [if_pos hl]
    exact h.install hs hk hl hnew
  · rw [if_neg hl]
    refine h.skip ?_
    rw [Ledger.reopen, hk, Option.filter_some, if_neg hl]

theorem Loading.foldl (h : Loading L min max now keys acc) (hs : L.Sound)
    (kvs : List (GoString × Row)) (hrow : ∀ kv ∈ kvs, ∃ l, L kv.1 = some l ∧ kv.2 = l.marshal)
    (hnew : ∀ kv ∈ kvs, kv.1 ∉ keys) (hd : (kvs.map Prod.fst).Nodup) :
    Loading L min max now ((kvs.map Prod.fst).reverse ++ keys)
      (kvs.foldl (HyruleProxy.loadRow min max now) acc) := by
  induction kvs generalizing keys acc with
  | nil => exact h
  | cons kv kvs ih =>
    obtain ⟨k, row⟩ := kv
    obtain ⟨l, hk, rfl⟩ : ∃ l, L k = some l ∧ row = l.marshal := hrow (k, row) List.mem_cons_self
    rw [List.map_cons, List.nodup_cons] at hd
    have hstep := h.loadRow hs hk (hnew _ List.mem_cons_self)
    have hrest := ih hstep (fun kv hkv => hrow kv (List.mem_cons_of_mem _ hkv)) (by
      intro kv hkv hmem
      rcases List.mem_cons.1 hmem with he | hmem
      · exact hd.1 (List.mem_map.2 ⟨kv, hkv, he⟩)
      · exact hnew kv (List.mem_cons_of_mem _ hkv) hmem) hd.2
    simpa using hrest

theorem Loading.blank (L : Ledger) (db : DB) (min max : Int) (now : Time) :
    Loading L min max now [] (⟨db, [], ∅, ∅, newPortAllocator min max⟩, []) := by
  have hget : (⟨db, [], ∅, ∅, newPortAllocator min max⟩ : Store).get = fun _ => none := by
    funext id
    simp only [Store.get, Store.deref, GoMap.get_empty, Option.bind_none]
  refine ⟨⟨?_, ?_⟩, ⟨?_, ?_, ?_⟩, rfl, ?_, ?_⟩
  · intro id r hr
    rw [GoMap.get_empty] at hr
    cases hr
  · intro t r hr
    rw [GoMap.get_empty] at hr
    cases hr
  · intro id id' l l' hl
    rw [hget] at hl
    cases hl
  · intro id l hl
    rw [hget] at hl
    cases hl
  · intro p
    rw [hget]
    simp [newPortAllocator]
  · intro id
    rw [hget]
    simp
  · simp

/-- What `Open` makes of a file that keeps a sound ledger. -/
structure Opened (s : Store) (L : Ledger) (min max : Int) (now : Time) : Prop where
  inv : s.Inv
  get : s.get = L.reopen min max now
  min : s.alloc.min = min
  max : s.alloc.max = max

/-- When its transaction commits, `Open` loads exactly the live leases in range and leaves
exactly their rows. -/
theorem openStore_spec (hs : L.Sound) (hk : db.Keeps L) (min max : Int) (now : Time) :
    ∃ s, openStore db min max now true = some s ∧ Opened s L min max now := by
  have hrow : ∀ kv ∈ db.rows.toList, ∃ l, L kv.1 = some l ∧ kv.2 = l.marshal := by
    rintro ⟨k, row⟩ hkv
    have hr := GoMap.mem_toList.1 hkv
    rw [hk] at hr
    obtain ⟨l, hl, he⟩ := Option.map_eq_some_iff.1 hr
    exact ⟨l, hl, he.symm⟩
  have hd : (db.rows.toList.map Prod.fst).Nodup := by
    rw [Std.ExtTreeMap.map_fst_toList_eq_keys]
    exact Std.ExtTreeMap.nodup_keys
  have hload := (Loading.blank L db min max now).foldl hs db.rows.toList hrow (by simp) hd
  generalize hacc : db.rows.toList.foldl (loadRow min max now) _ = acc at hload
  have hmem : ∀ id l, L id = some l → id ∈ (db.rows.toList.map Prod.fst).reverse ++ [] := by
    intro id l hl
    rw [List.append_nil, List.mem_reverse]
    refine List.mem_map.2 ⟨(id, l.marshal), GoMap.mem_toList.2 ?_, rfl⟩
    rw [hk, hl]
    rfl
  have hget : acc.1.get = L.reopen min max now := by
    funext id
    rw [hload.get]
    cases hl : L id with
    | none => simp [Ledger.reopen, hl]
    | some l => rw [if_pos (hmem id l hl)]
  refine ⟨{ acc.1 with db := ⟨some (db.rows.eraseKeys acc.2)⟩ }, ?_, ⟨?_, hget, ?_, ?_⟩⟩
  · rw [openStore, ← hacc]
    rfl
  · refine ⟨⟨hload.indexed.byID, hload.indexed.byToken⟩, hload.ports, ?_, ?_, ?_⟩
    · rw [hload.alloc]
      exact PortAllocator.inRange_new min max
    · refine ⟨_, rfl, fun id => ?_⟩
      rw [GoMap.get_eraseKeys, hk]
      change _ = (acc.1.get id).map Lease.marshal
      rw [hget]
      cases hl : L id with
      | none => simp [Ledger.reopen, hl]
      | some l =>
        have hst := hload.stale id
        simp only [hmem id l hl, true_and] at hst
        by_cases hkl : l.kept min max now
        · have hr : L.reopen min max now id = some l := Ledger.reopen_eq_some.2 ⟨hl, hkl⟩
          rw [if_neg (by rw [hst, hr]; simp), hr]
        · have hr : L.reopen min max now id = none := by
            rw [Ledger.reopen, hl, Option.filter_some, if_neg hkl]
          rw [if_pos (hst.2 hr), hr]
          rfl
    · intro id l hl
      change acc.1.get id = some l at hl
      rw [hget] at hl
      exact hs.clean (Ledger.reopen_eq_some.1 hl).1
  · rw [hload.alloc]
    rfl
  · rw [hload.alloc]
    rfl

end Open

end HyruleProxy
