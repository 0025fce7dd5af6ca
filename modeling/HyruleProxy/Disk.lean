import HyruleProxy.LeaseCodec
import HyruleProxy.Recovery

namespace HyruleProxy
set_option autoImplicit true

/-- The rows that the values of a bucket are for `Open`. -/
def decodeRows (b : GoMap GoString GoString) : GoMap GoString Row := b.map fun _ v => Row.ofBytes v

/-- The file with the bytes of its values, or without the bucket. That a transaction of the database
happens wholly or not at all is assumed of it. -/
structure File where
  leases : Option (GoMap GoString GoString)

namespace File

def empty : File := ⟨none⟩

def put (f : File) (key value : GoString) : Option File :=
  f.leases.map fun b => ⟨some (b.insert key value)⟩

def delete (f : File) (key : GoString) : File := ⟨f.leases.map (·.erase key)⟩

def rows (f : File) : DB := ⟨f.leases.map decodeRows⟩

def value (f : File) (key : GoString) : Option GoString := f.leases.bind fun b => b[key]?

/-- The transaction of `persist`. -/
def update (f : File) (key value : GoString) (commits : Bool) : Except StoreError File :=
  if commits then
    match f.put key value with
    | none => .error .bucketMissing
    | some f' => .ok f'
  else .error .update

/-- The model of `persist`, which marshals the lease before it begins the transaction. -/
def persist (f : File) (l : Lease) (z : Zones) (commits : Bool) : Except StoreError File :=
  (l.marshalBytes z).elim (.error .marshal) fun data => f.update l.leaseID data commits

end File

/-- `Open` on the bytes of the file. -/
def openFile (f : File) (min max : Int) (now : Time) (commits : Bool) : Option (File × Store) :=
  let bucket := f.leases.getD ∅
  let blank : Store := ⟨f.rows, [], ∅, ∅, newPortAllocator min max⟩
  let loaded := bucket.toList.foldl
    (fun acc kv => loadRow min max now acc (kv.1, Row.ofBytes kv.2)) (blank, [])
  if commits then some (⟨some (bucket.eraseKeys loaded.2)⟩, loaded.1) else none

/-- The change that the transaction of a call makes to the bucket. -/
inductive Change where
  | put (l : Lease)
  | delete (id : GoString)

namespace Call

/-- The change of a call, if it gets as far as a transaction. -/
def change (s : Store) : Call → Option Change
  | create p env =>
    match s.get p.leaseID, p.allowlistCIDRs.find? fun c => (parseCIDR c).isNone,
        (s.alloc.allocate env.portInUse).1, mintToken env.rand with
    | none, none, some port, some token => some (.put (Store.newLease p token port env.now))
    | _, _, _, _ => none
  | extend id d _ => (s.get id).map fun l => .put { l with expiresAt := l.expiresAt + d }
  | revoke id _ => (s.get id).map fun _ => .delete id
  | markExpired id _ => (s.get id).map fun _ => .delete id
  | markExpiredIfBefore id cutoff _ =>
    match s.get id with
    | none => none
    | some l => if cutoff < l.expiresAt then none else some (.delete id)

/-- Whether the transaction of a call commits. -/
def commits : Call → Bool
  | create _ env => env.persist = .commits
  | extend _ _ o => o = .commits
  | revoke _ commits => commits
  | markExpired _ commits => commits
  | markExpiredIfBefore _ _ commits => commits

def withPersist (o : Persist) : Call → Call
  | create p env => create p { env with persist := o }
  | extend id d _ => extend id d o
  | c => c

/-- How `persist` ends for a lease whose instants stand in given zones. -/
def outcome (l : Lease) (z : Zones) (commits : Bool) : Persist :=
  if (l.marshalBytes z).isNone then .marshalFails
  else if commits then .commits else .updateFails

/-- A call whose `persist` ends as the bytes of the lease have it. -/
def settle (s : Store) (z : Zones) (c : Call) : Call :=
  match c.change s with
  | some (.put l) => c.withPersist (outcome l z c.commits)
  | _ => c

end Call

/-- The file after a call on the store. -/
def File.after (f : File) (s : Store) (z : Zones) (c : Call) : File :=
  match c.change s with
  | none => f
  | some (.put l) => ((f.persist l z c.commits).toOption).getD f
  | some (.delete id) => if c.commits then f.delete id else f

/-- A process with an open store over its file, or the file a dead one has left. -/
inductive Disk where
  | down (f : File)
  | up (f : File) (s : Store)

/-- What can happen: a call returns, the process dies inside a call before or after its
transaction or between two calls, or a new process opens the file. -/
inductive DiskEvent where
  | call (c : Call) (z : Zones)
  | crash (c : Call) (z : Zones) (late : Bool)
  | stop
  | boot (min max : Int64) (now : Time) (commits : Bool)

/-- A store that sees the rows of a file. -/
def Store.onFile (s : Store) (f : File) : Store := { s with db := f.rows }

namespace Disk

def file : Disk → File
  | down f => f
  | up f _ => f

def step : Disk → DiskEvent → Disk × List Entry
  | up f s, .call c z =>
    let c' := c.settle (s.onFile f) z
    let o := c'.run (s.onFile f)
    (up (f.after (s.onFile f) z c) o.store, [.acked c' o.result])
  | up f s, .crash c z late =>
    let c' := c.settle (s.onFile f) z
    (down (if late then f.after (s.onFile f) z c else f),
      [.lost c' (c'.run (s.onFile f)).result])
  | up f _, .stop => (down f, [])
  | down f, .boot min max now commits =>
    match openFile f min.toInt max.toInt now commits with
    | none => (down f, [])
    | some (f', s) => (up f' s, [.booted min.toInt max.toInt now])
  | d, _ => (d, [])

def run : Disk → List DiskEvent → Disk × List Entry
  | d, [] => (d, [])
  | d, e :: es => (((d.step e).1.run es).1, (d.step e).2 ++ ((d.step e).1.run es).2)

/-- The machine over rows that a machine over bytes stands for. -/
def view : Disk → Machine
  | down f => .down f.rows
  | up f s => .up (s.onFile f)

end Disk

namespace DiskEvent

def call? : DiskEvent → Option Call
  | call c _ => some c
  | crash c _ _ => some c
  | _ => none

def zones? : DiskEvent → Option Zones
  | call _ z => some z
  | crash _ z _ => some z
  | _ => none

def token (e : DiskEvent) : Option GoString := e.call?.bind Call.token

def mints (es : List DiskEvent) : List GoString := es.filterMap token

def ValidID (e : DiskEvent) : Prop :=
  ∀ p env, e.call? = some (.create p env) → ValidUTF8 p.leaseID

/-- The zones are whole minutes away from UTC, which is all that RFC 3339 can write. -/
def WholeMinutes (e : DiskEvent) : Prop :=
  ∀ z, e.zones? = some z → z.createdAt % 60 = 0 ∧ z.expiresAt % 60 = 0

/-- The event of the machine over rows. A process that dies inside a call has got to its first
point or to its last one. -/
def lower (d : Disk) : DiskEvent → Event
  | call c z =>
    match d with
    | .up f s => .call (c.settle (s.onFile f) z)
    | .down _ => .call c
  | crash c z late =>
    match d with
    | .up f s =>
      let c' := c.settle (s.onFile f) z
      .crash c' (if late then (c'.run (s.onFile f)).points.length else 0)
    | .down _ => .crash c 0
  | stop => .stop
  | boot min max now commits => .boot min.toInt max.toInt now commits

end DiskEvent

section Rows

variable {f f' : File} {l : Lease} {z : Zones} {s : Store} {c : Call} {b : GoMap GoString GoString}

theorem get_decodeRows (b : GoMap GoString GoString) (k : GoString) :
    (decodeRows b)[k]? = b[k]?.map Row.ofBytes :=
  Std.ExtTreeMap.getElem?_map

theorem decodeRows_insert (b : GoMap GoString GoString) (k data : GoString) :
    decodeRows (b.insert k data) = (decodeRows b).insert k (Row.ofBytes data) := by
  apply Std.ExtTreeMap.ext_getElem?
  intro a
  rw [get_decodeRows, GoMap.get_insert, GoMap.get_insert, get_decodeRows]
  split <;> rfl

theorem decodeRows_erase (b : GoMap GoString GoString) (k : GoString) :
    decodeRows (b.erase k) = (decodeRows b).erase k := by
  apply Std.ExtTreeMap.ext_getElem?
  intro a
  rw [get_decodeRows, GoMap.get_erase, GoMap.get_erase, get_decodeRows]
  split <;> rfl

theorem decodeRows_eraseKeys (b : GoMap GoString GoString) (ks : List GoString) :
    decodeRows (b.eraseKeys ks) = (decodeRows b).eraseKeys ks := by
  apply Std.ExtTreeMap.ext_getElem?
  intro a
  rw [get_decodeRows, GoMap.get_eraseKeys, GoMap.get_eraseKeys, get_decodeRows]
  split <;> rfl

theorem File.rows_bucket (f : File) : f.rows.rows = decodeRows (f.leases.getD ∅) := by
  cases hb : f.leases with
  | none =>
    apply Std.ExtTreeMap.ext_getElem?
    intro k
    rw [get_decodeRows, DB.rows, rows, hb]
    simp
  | some b => rw [DB.rows, rows, hb, Option.map_some, Option.getD_some, Option.getD_some]

theorem File.get_rows (f : File) (id : GoString) :
    f.rows.rows[id]? = (f.value id).map Row.ofBytes := by
  rw [rows_bucket, get_decodeRows, value]
  cases f.leases with
  | none => simp
  | some b => rfl

theorem File.rows_put (h : f.put key data = some f') :
    f.rows.put key (Row.ofBytes data) = some f'.rows := by
  obtain ⟨b, hb, rfl⟩ := Option.map_eq_some_iff.1 h
  rw [DB.put, rows, rows, hb, Option.map_some, Option.map_some, Option.map_some, decodeRows_insert]

theorem File.rows_delete (f : File) (key : GoString) : (f.delete key).rows = f.rows.delete key := by
  cases hb : f.leases with
  | none =>
    rw [rows, rows, delete, DB.delete, hb, Option.map_none, Option.map_none, Option.map_none]
  | some b =>
    rw [rows, rows, delete, DB.delete, hb, Option.map_some, Option.map_some, Option.map_some,
      Option.map_some, decodeRows_erase]

theorem openStore_rows (f : File) (min max : Int) (now : Time) (commits : Bool) :
    openStore f.rows min max now commits =
      (openFile f min max now commits).map fun r => r.2.onFile r.1 := by
  cases commits with
  | false => rfl
  | true =>
    have hb : f.rows.leases.getD ∅ = decodeRows (f.leases.getD ∅) := f.rows_bucket
    have hl : (decodeRows (f.leases.getD ∅)).toList =
        (f.leases.getD ∅).toList.map fun kv => (kv.1, Row.ofBytes kv.2) :=
      Std.ExtTreeMap.toList_map
    simp only [openStore, openFile, hb, hl, List.foldl_map, if_true, Option.map_some]
    simp only [Store.onFile, File.rows, Option.map_some, decodeRows_eraseKeys]

end Rows

/-- The rows after a change whose transaction commits. -/
def Change.rows (db : DB) : Change → DB
  | put l => (db.put l.leaseID l.marshal).getD db
  | delete id => db.delete id

namespace Call

variable {s : Store} {c : Call} {l : Lease} {z : Zones} {o : Persist} {ch : Change}

theorem persist_cases (s : Store) (l : Lease) (o : Persist) :
    (∃ e, s.persist l o = .error e ∧
      (if o = .commits then (Change.put l).rows s.db else s.db) = s.db) ∨
    s.persist l o = .ok (if o = .commits then (Change.put l).rows s.db else s.db) := by
  cases o with
  | marshalFails => exact .inl ⟨_, rfl, rfl⟩
  | updateFails => exact .inl ⟨_, rfl, rfl⟩
  | commits =>
    rw [Store.persist, if_pos rfl, Change.rows]
    cases s.db.put l.leaseID l.marshal with
    | none => exact .inl ⟨_, rfl, rfl⟩
    | some db => exact .inr rfl

theorem remove_db (s : Store) (id : GoString) (commits : Bool) :
    (s.remove id commits).store.db =
      if commits = true ∧ (s.get id).isSome then s.db.delete id else s.db := by
  rw [Store.remove]
  cases s.get id with
  | none => simp
  | some l => cases commits <;> simp

theorem create_db (s : Store) (p : CreateParams) (env : CreateEnv) :
    (s.create p env).store.db = if env.persist = .commits then
      ((create p env).change s).elim s.db (Change.rows s.db) else s.db := by
  rw [Store.create, change]
  cases s.get p.leaseID with
  | some l => simp
  | none =>
    cases p.allowlistCIDRs.find? fun c => (parseCIDR c).isNone with
    | some c => simp
    | none =>
      obtain ⟨port, a⟩ := s.alloc.allocate env.portInUse
      cases port with
      | none => simp
      | some port =>
        cases mintToken env.rand with
        | none => simp
        | some token =>
          rcases persist_cases { s with alloc := a } (Store.newLease p token port env.now)
            env.persist with ⟨e, he, hdb⟩ | he
          · simp only [he, Option.elim_some]
            exact hdb.symm
          · simp only [he, Option.elim_some]
            rfl

theorem extend_db (s : Store) (id : GoString) (d : Duration) (o : Persist) :
    (s.extend id d o).store.db = if o = .commits then
      ((extend id d o).change s).elim s.db (Change.rows s.db) else s.db := by
  rw [Store.extend, change, Store.get, Store.deref]
  cases hr : s.byID[id]? with
  | none => simp
  | some r =>
    cases hl : s.heap[r]? with
    | none => simp [hl]
    | some l =>
      rcases persist_cases s { l with expiresAt := l.expiresAt + d } o with ⟨e, he, hdb⟩ | he
      · simp only [hl, he, Option.bind_some, Option.map_some, Option.elim_some]
        exact hdb.symm
      · simp only [hl, he, Option.bind_some, Option.map_some, Option.elim_some]

theorem run_db (s : Store) (c : Call) : (c.run s).store.db =
    if c.commits = true then (c.change s).elim s.db (Change.rows s.db) else s.db := by
  have hdelete : ∀ id commits, (s.remove id commits).store.db = if commits = true then
      ((s.get id).map fun _ => Change.delete id).elim s.db (Change.rows s.db) else s.db := by
    intro id commits
    rw [remove_db]
    cases s.get id <;> cases commits <;> rfl
  cases c with
  | create p env =>
    simp only [commits, decide_eq_true_eq]
    exact create_db s p env
  | extend id d o =>
    simp only [commits, decide_eq_true_eq]
    exact extend_db s id d o
  | revoke id commits => exact hdelete id commits
  | markExpired id commits => exact hdelete id commits
  | markExpiredIfBefore id cutoff commits =>
    have hd := hdelete id commits
    simp only [run, Outcome.map, Store.markExpiredIfBefore, change, Call.commits]
    cases hg : s.get id with
    | none => cases commits <;> rfl
    | some l =>
      rw [hg] at hd
      by_cases hl : cutoff < l.expiresAt
      · simp [hl]
      · simp only [hl, if_false]
        generalize s.remove id commits = out at hd
        obtain ⟨_ | _, s', ps⟩ := out
        · exact hd
        · exact hd

theorem change_withPersist (s : Store) (o : Persist) (c : Call) :
    (c.withPersist o).change s = c.change s := by
  cases c <;> rfl

theorem change_settle (s : Store) (z : Zones) (c : Call) :
    (c.settle s z).change s = c.change s := by
  rw [settle]
  split
  · exact change_withPersist s _ c
  · rfl

theorem commits_withPersist (h : c.change s = some (.put l)) :
    (c.withPersist o).commits = decide (o = .commits) := by
  cases c with
  | create p env => rfl
  | extend id d o => rfl
  | revoke id commits =>
    obtain ⟨_, _, he⟩ := Option.map_eq_some_iff.1 h
    cases he
  | markExpired id commits =>
    obtain ⟨_, _, he⟩ := Option.map_eq_some_iff.1 h
    cases he
  | markExpiredIfBefore id cutoff commits =>
    rw [change] at h
    split at h
    · cases h
    · split at h <;> cases h

theorem outcome_commits :
    outcome l z b = .commits ↔ (l.marshalBytes z).isSome = true ∧ b = true := by
  rw [outcome]
  cases l.marshalBytes z <;> cases b <;> simp

theorem token_settle (s : Store) (z : Zones) (c : Call) : (c.settle s z).token = c.token := by
  rw [settle]
  split
  · cases c <;> rfl
  · rfl

theorem create_of_settle (h : c.settle s z = create p env) : ∃ env', c = create p env' := by
  rw [settle] at h
  split at h
  · cases c with
    | create p' env' =>
      cases h
      exact ⟨env', rfl⟩
    | extend => cases h
    | revoke => cases h
    | markExpired => cases h
    | markExpiredIfBefore => cases h
  · exact ⟨env, h⟩

end Call

theorem File.put_eq_none {f : File} (h : f.put key data = none) (row : Row) :
    f.rows.put key row = none := by
  have h : f.leases = none := Option.map_eq_none_iff.1 h
  rw [DB.put, rows, h, Option.map_none, Option.map_none]

theorem File.toOption_persist (f : File) (l : Lease) (z : Zones) (b : Bool) :
    (f.persist l z b).toOption =
      if b = true then (l.marshalBytes z).bind (f.put l.leaseID) else none := by
  rw [File.persist]
  cases l.marshalBytes z with
  | none => cases b <;> rfl
  | some data =>
    cases b with
    | false => rfl
    | true =>
      rw [Option.elim_some, Option.bind_some, if_pos rfl, File.update, if_pos rfl]
      cases f.put l.leaseID data <;> rfl

/-- The bytes of a file follow the rows of the store through every call. -/
theorem File.rows_after {f : File} {s : Store} {z : Zones} {c : Call} (hdb : s.db = f.rows)
    (hput : ∀ l, c.change s = some (.put l) → l.Storable z) :
    (f.after s z c).rows = ((c.settle s z).run s).store.db := by
  rw [Call.run_db, Call.change_settle, File.after, hdb]
  cases hc : c.change s with
  | none => rw [Option.elim_none, ite_self]
  | some ch =>
    cases ch with
    | delete id =>
      simp only [Call.settle, hc, Option.elim_some, Change.rows, apply_ite File.rows, rows_delete]
    | put l =>
      have hsettle : c.settle s z = c.withPersist (Call.outcome l z c.commits) := by
        simp only [Call.settle, hc]
      simp only [hsettle, Call.commits_withPersist hc, Option.elim_some, toOption_persist,
        decide_eq_true_eq, Call.outcome_commits, Change.rows]
      cases hm : l.marshalBytes z with
      | none => simp
      | some data =>
        have hrow := Row.ofBytes_marshalBytes (hput l hc) hm
        cases c.commits with
        | false => simp
        | true =>
          cases hf : f.put l.leaseID data with
          | none => simp [hf, File.put_eq_none hf]
          | some f' =>
            have hr := File.rows_put hf
            rw [hrow] at hr
            simp [hf, hr]

namespace Call

variable {s : Store} {c : Call} {l : Lease}

theorem change_put (hs : s.Inv) (h : c.change s = some (.put l)) :
    (s.alloc.min ≤ l.allocatedPort ∧ l.allocatedPort ≤ s.alloc.max) ∧ l.status = .active := by
  cases c with
  | create p env =>
    have ha := PortAllocator.allocate_spec env.portInUse hs.cursor
    rw [change] at h
    split at h
    · rename_i port token _ _ hport _
      cases h
      generalize s.alloc.allocate env.portInUse = out at ha hport
      obtain ⟨_, a⟩ := out
      cases hport
      exact ⟨⟨ha.1, ha.2.1⟩, rfl⟩
    · cases h
  | extend id d o =>
    obtain ⟨l', hl', he⟩ := Option.map_eq_some_iff.1 h
    cases he
    have hr := hs.ports.range hl'
    have ha := (hs.clean hl').active
    exact ⟨hr, ha⟩
  | revoke id commits =>
    obtain ⟨_, _, he⟩ := Option.map_eq_some_iff.1 h
    cases he
  | markExpired id commits =>
    obtain ⟨_, _, he⟩ := Option.map_eq_some_iff.1 h
    cases he
  | markExpiredIfBefore id cutoff commits =>
    rw [change] at h
    split at h
    · cases h
    · split at h <;> cases h

theorem head_remove (s : Store) (id : GoString) (commits : Bool) :
    (s.remove id commits).points[0]? = some s := by
  rcases s.remove_cases id commits with ⟨e, he⟩ | ⟨l, h⟩
  · rw [he]
    rfl
  · rw [h.outcome]
    rfl

theorem head_points (s : Store) (c : Call) : (c.run s).points[0]? = some s := by
  cases c with
  | create p env =>
    simp only [run, Outcome.map, Store.create]
    split
    · rfl
    · split
      · rfl
      · split
        · rfl
        · split
          · rfl
          · split <;> rfl
  | extend id d o =>
    simp only [run, Outcome.map]
    rcases s.extend_cases id d o with ⟨e, he⟩ | ⟨l, r, db, h⟩
    · rw [he]
      rfl
    · rw [h.outcome]
      rfl
  | revoke id commits => exact head_remove s id commits
  | markExpired id commits => exact head_remove s id commits
  | markExpiredIfBefore id cutoff commits =>
    simp only [run, Outcome.map]
    rcases s.markExpiredIfBefore_cases id cutoff commits with ⟨w, e, he⟩ | ⟨l, h, _, he⟩
    · rw [he]
      rfl
    · rw [he]
      exact head_remove s id commits

end Call

theorem Outcome.dbAt_zero {o : Outcome α} (h : o.points[0]? = some s) : o.dbAt 0 = s.db := by
  have hlt : 0 < o.points.length := by
    by_contra hn
    rw [List.getElem?_eq_none (by omega)] at h
    cases h
  rw [dbAt, List.getElem?_append_left hlt, h, Option.getD_some]

theorem Outcome.dbAt_length (o : Outcome α) : o.dbAt o.points.length = o.store.db := by
  rw [dbAt, List.getElem?_concat_length, Option.getD_some]

/-- The bounds of the range of an open store are machine integers. -/
def Machine.Bounded (m : Machine) : Prop :=
  ∀ s, m = .up s → -2 ^ 63 ≤ s.alloc.min ∧ s.alloc.max < 2 ^ 63

theorem Store.onFile_self {s : Store} (h : f.rows = s.db) : s.onFile f = s := by
  rw [Store.onFile, h]

namespace Disk

variable {d : Disk} {e : DiskEvent} {L : Ledger} {f : File} {s : Store} {c : Call} {z : Zones}

theorem storable (hs : s.Inv) (hb : -2 ^ 63 ≤ s.alloc.min ∧ s.alloc.max < 2 ^ 63)
    (hz : z.createdAt % 60 = 0 ∧ z.expiresAt % 60 = 0) (h : c.change s = some (.put l)) :
    l.Storable z := by
  obtain ⟨hr, ha⟩ := Call.change_put hs h
  refine ⟨⟨by omega, by omega⟩, hz.1, hz.2, ?_⟩
  rw [ha]
  decide

/-- One event over the bytes is one event over the rows. -/
theorem view_step (hk : d.view.Keeps L) (hb : d.view.Bounded) (hz : e.WholeMinutes) :
    ((d.step e).1.view, (d.step e).2) = d.view.step (e.lower d) := by
  cases d with
  | up f s =>
    obtain ⟨hs, -⟩ := hk.up _ rfl
    have hafter : ∀ c z, z.createdAt % 60 = 0 ∧ z.expiresAt % 60 = 0 →
        (f.after (s.onFile f) z c).rows =
          ((c.settle (s.onFile f) z).run (s.onFile f)).store.db := by
      intro c z hz
      exact File.rows_after rfl fun l hl => storable hs (hb _ rfl) hz hl
    cases e with
    | call c z =>
      simp only [step, view, DiskEvent.lower, Machine.step]
      rw [Store.onFile_self (hafter c z (hz z rfl))]
    | crash c z late =>
      simp only [step, view, DiskEvent.lower, Machine.step]
      cases late with
      | false =>
        rw [if_neg (by decide), if_neg (by decide), Outcome.dbAt_zero (Call.head_points _ _)]
        rfl
      | true => rw [if_pos rfl, if_pos rfl, Outcome.dbAt_length, hafter c z (hz z rfl)]
    | stop => rfl
    | boot => rfl
  | down f =>
    cases e with
    | call => rfl
    | crash => rfl
    | stop => rfl
    | boot min max now commits =>
      simp only [step, view, DiskEvent.lower, Machine.step, openStore_rows]
      cases openFile f min.toInt max.toInt now commits with
      | none => rfl
      | some r => rfl

theorem token_lower (d : Disk) (e : DiskEvent) : (e.lower d).token = e.token := by
  cases e with
  | call c z =>
    cases d with
    | up f s => exact Call.token_settle _ z c
    | down f => rfl
  | crash c z late =>
    cases d with
    | up f s => exact Call.token_settle _ z c
    | down f => rfl
  | stop => rfl
  | boot => rfl

theorem validID_lower (h : e.ValidID) (d : Disk) : (e.lower d).ValidID := by
  intro p env hc
  cases e with
  | call c z =>
    cases d with
    | up f s =>
      obtain ⟨env', rfl⟩ := Call.create_of_settle (Option.some_inj.1 hc)
      exact h p env' rfl
    | down f => exact h p env hc
  | crash c z late =>
    cases d with
    | up f s =>
      obtain ⟨env', rfl⟩ := Call.create_of_settle (Option.some_inj.1 hc)
      exact h p env' rfl
    | down f => exact h p env hc
  | stop => cases hc
  | boot => cases hc

theorem bounded_step (hk : d.view.Keeps L) (hb : d.view.Bounded)
    (hf : Call.Fresh L ((e.lower d).token.toList ++ ts)) :
    (d.view.step (e.lower d)).1.Bounded := by
  cases d with
  | up f s =>
    obtain ⟨hs, rfl⟩ := hk.up _ rfl
    cases e with
    | call c z =>
      have hsp := Call.spec_of_fresh hs _ hf
      rintro _ ⟨⟩
      rw [hsp.min, hsp.max]
      exact hb _ rfl
    | crash => exact fun _ he => nomatch he
    | stop => exact fun _ he => nomatch he
    | boot => exact hb
  | down f =>
    cases e with
    | call => exact hb
    | crash => exact hb
    | stop => exact hb
    | boot min max now commits =>
      cases commits with
      | false => exact fun _ he => nomatch he
      | true =>
        obtain ⟨s, ho, hop⟩ := openStore_spec hk.sound hk.db min.toInt max.toInt now
        have ho : openStore f.rows min.toInt max.toInt now true = some s := ho
        simp only [view, DiskEvent.lower, Machine.step, ho]
        rintro _ ⟨⟩
        rw [hop.min, hop.max]
        exact ⟨min.le_toInt, max.toInt_lt⟩

/-- Over a whole run the bytes keep a ledger that the log can have committed. -/
theorem keeps_run (hk : d.view.Keeps L) (hb : d.view.Bounded) (es : List DiskEvent)
    (ts : List GoString) (hv : ∀ e ∈ es, e.ValidID) (hz : ∀ e ∈ es, e.WholeMinutes)
    (hn : (DiskEvent.mints es ++ ts).Nodup) (hf : Call.Fresh L (DiskEvent.mints es ++ ts)) :
    ∃ L', Committed L (d.run es).2 L' ∧ (d.run es).1.view.Keeps L' := by
  induction es generalizing d L with
  | nil => exact ⟨L, .nil, hk⟩
  | cons e es ih =>
    have hm : DiskEvent.mints (e :: es) = (e.lower d).token.toList ++ DiskEvent.mints es := by
      rw [token_lower]
      exact filterMap_cons_toList DiskEvent.token e es
    rw [hm, List.append_assoc] at hn hf
    have hstep := view_step hk hb (hz e List.mem_cons_self)
    obtain ⟨L₁, hc₁, hk₁, hf₁⟩ := hk.step (validID_lower (hv e List.mem_cons_self) d) hn hf
    have hb₁ := bounded_step hk hb hf
    rw [← hstep] at hc₁ hk₁ hb₁
    obtain ⟨L₂, hc₂, hk₂⟩ := ih hk₁ hb₁ (fun e he => hv e (List.mem_cons_of_mem _ he))
      (fun e he => hz e (List.mem_cons_of_mem _ he)) (List.nodup_append.1 hn).2.1 hf₁
    exact ⟨L₂, hc₁.append hc₂, hk₂⟩

theorem db_view (d : Disk) : d.view.db = d.file.rows := by
  cases d <;> rfl

/-- Whatever has happened, `Open` finds in the bytes of the file exactly the committed leases that
are live and in range, and leaves exactly their values. -/
theorem reopen_bytes (es : List DiskEvent) (hv : ∀ e ∈ es, e.ValidID)
    (hz : ∀ e ∈ es, e.WholeMinutes) (hn : (DiskEvent.mints es).Nodup) :
    ∃ L, Committed (fun _ => none) ((down .empty).run es).2 L ∧ ∀ min max now, ∃ f s,
      openFile ((down .empty).run es).1.file min max now true = some (f, s) ∧
      (∀ id l, s.get id = some l ↔ L id = some l ∧ now < l.expiresAt ∧
        min ≤ l.allocatedPort ∧ l.allocatedPort ≤ max) ∧
      ∀ id, (f.value id).bind (fun data => (Row.ofBytes data).unmarshal) = s.get id ∧
        ((f.value id).isSome → (s.get id).isSome) := by
  have hempty : (down .empty).view.Keeps fun _ => none := Machine.keeps_empty
  obtain ⟨L, hc, hk⟩ := keeps_run hempty (fun _ he => nomatch he) es [] hv hz
    (by rwa [List.append_nil]) fun _ _ hl => nomatch hl
  refine ⟨L, hc, ?_⟩
  intro min max now
  obtain ⟨s, ho, hop⟩ := openStore_spec hk.sound hk.db min max now
  rw [db_view, openStore_rows] at ho
  obtain ⟨⟨f, s⟩, hopen, rfl⟩ := Option.map_eq_some_iff.1 ho
  refine ⟨f, s, hopen, ?_, ?_⟩
  · intro id l
    have hget : s.get id = L.reopen min max now id := congrFun hop.get id
    rw [hget, Ledger.reopen_eq_some]
    simp [Lease.kept, and_assoc]
  · intro id
    have hrow : (f.value id).map Row.ofBytes = (s.get id).map Lease.marshal :=
      (f.get_rows id).symm.trans (hop.inv.rows id)
    cases hg : s.get id with
    | none =>
      rw [hg, Option.map_none, Option.map_eq_none_iff] at hrow
      rw [hrow]
      exact ⟨rfl, fun h => h⟩
    | some l =>
      have hl : (s.onFile f).get id = some l := hg
      have hown := hop.inv.indexed.own_id hl
      rw [hg, Option.map_some] at hrow
      obtain ⟨data, hd, hm⟩ := Option.map_eq_some_iff.1 hrow
      rw [hd, Option.bind_some, hm]
      refine ⟨(hop.inv.clean hl).unmarshal_valid ?_, fun _ => rfl⟩
      rw [hown]
      rw [hop.get] at hl
      exact hk.sound.reopen.valid hl

/-- A create is answered, an extension dies before its transaction and a create after it, all in
a zone two hours east. -/
def sampleDisk : List DiskEvent :=
  let z : Zones := ⟨7200, 7200⟩
  [.boot 20000 20001 0 true, .call (Store.sampleCreate (lit "a") 0 5) z,
    .crash (.extend (lit "a") 60 .commits) z false, .boot 20000 20001 7 true,
    .crash (Store.sampleCreate (lit "b") 1 6) z true, .boot 20001 20002 8 true, .stop]

theorem reopen_sampleDisk :
    ∃ L, Committed (fun _ => none) ((down .empty).run sampleDisk).2 L ∧ ∃ f s,
      openFile ((down .empty).run sampleDisk).1.file 20000 20002 9 true = some (f, s) ∧
      ∀ id l, s.get id = some l ↔ L id = some l ∧ 9 < l.expiresAt ∧
        20000 ≤ l.allocatedPort ∧ l.allocatedPort ≤ 20002 := by
  obtain ⟨L, hc, h⟩ := reopen_bytes sampleDisk (by
      intro e he p env hp
      simp only [sampleDisk, List.mem_cons, List.not_mem_nil, or_false] at he
      rcases he with rfl | rfl | rfl | rfl | rfl | rfl | rfl <;> cases hp <;> decide) (by
      intro e he z hz
      simp only [sampleDisk, List.mem_cons, List.not_mem_nil, or_false] at he
      rcases he with rfl | rfl | rfl | rfl | rfl | rfl | rfl <;> cases hz <;> decide)
    (by decide)
  obtain ⟨f, s, ho, hg, _⟩ := h 20000 20002 9
  exact ⟨L, hc, f, s, ho, hg⟩

end Disk

end HyruleProxy
