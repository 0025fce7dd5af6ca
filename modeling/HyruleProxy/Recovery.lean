import HyruleProxy.StoreRun

namespace HyruleProxy
set_option autoImplicit true

/-- A process with an open store, or the file a dead one has left. -/
inductive Machine where
  | down (db : DB)
  | up (s : Store)

def Machine.db : Machine → DB
  | .down db => db
  | .up s => s.db

/-- What can happen to a machine: a call returns, the process dies at the `k`-th point inside a
call or between two calls, or a new process runs `Open`. -/
inductive Event where
  | call (c : Call)
  | crash (c : Call) (k : Nat)
  | stop
  | boot (min max : Int) (now : Time) (commits : Bool)

/-- What callers have seen: an answered call, a call whose process died before the answer, and
a start of the daemon. -/
inductive Entry where
  | acked (c : Call) (r : Reply)
  | lost (c : Call) (r : Reply)
  | booted (min max : Int) (now : Time)

/-- The file at the `k`-th point of a call, the last of which is its end. -/
def Outcome.dbAt (o : Outcome α) (k : Nat) : DB := ((o.points ++ [o.store])[k]?.getD o.store).db

def Machine.step : Machine → Event → Machine × List Entry
  | .up s, .call c => (.up (c.run s).store, [.acked c (c.run s).result])
  | .up s, .crash c k => (.down ((c.run s).dbAt k), [.lost c (c.run s).result])
  | .up s, .stop => (.down s.db, [])
  | .down db, .boot min max now commits =>
    match openStore db min max now commits with
    | none => (.down db, [])
    | some s => (.up s, [.booted min max now])
  | m, _ => (m, [])

def Machine.run : Machine → List Event → Machine × List Entry
  | m, [] => (m, [])
  | m, e :: es => (((m.step e).1.run es).1, (m.step e).2 ++ ((m.step e).1.run es).2)

/-- The ledgers a log can have committed: an answered call has had its effect, a lost one has
had all of it or nothing, and a start keeps the leases that are live and in range. -/
inductive Committed : Ledger → List Entry → Ledger → Prop where
  | nil {L : Ledger} : Committed L [] L
  | acked {L L' : Ledger} {c : Call} {r : Reply} {log : List Entry} :
      Committed (c.effect L r) log L' → Committed L (.acked c r :: log) L'
  | present {L L' : Ledger} {c : Call} {r : Reply} {log : List Entry} :
      Committed (c.effect L r) log L' → Committed L (.lost c r :: log) L'
  | absent {L L' : Ledger} {c : Call} {r : Reply} {log : List Entry} :
      Committed L log L' → Committed L (.lost c r :: log) L'
  | booted {L L' : Ledger} {min max : Int} {now : Time} {log : List Entry} :
      Committed (L.reopen min max now) log L' → Committed L (.booted min max now :: log) L'

theorem Committed.append (h : Committed L log L') (h' : Committed L' log' L'') :
    Committed L (log ++ log') L'' := by
  induction h with
  | nil => exact h'
  | acked _ ih => exact .acked (ih h')
  | present _ ih => exact .present (ih h')
  | absent _ ih => exact .absent (ih h')
  | booted _ ih => exact .booted (ih h')

namespace Event

def call? : Event → Option Call
  | call c => some c
  | crash c _ => some c
  | _ => none

def token (e : Event) : Option GoString := e.call?.bind Call.token

/-- The tokens minted in a run, the ones of lost calls included. -/
def mints (es : List Event) : List GoString := es.filterMap token

/-- The ids of new leases are UTF-8, as the ones the control API decodes from JSON are. -/
def ValidID (e : Event) : Prop := ∀ p env, e.call? = some (.create p env) → ValidUTF8 p.leaseID

theorem mints_cons (e : Event) (es : List Event) :
    mints (e :: es) = e.token.toList ++ mints es :=
  filterMap_cons_toList token e es

end Event

namespace Machine

variable {s : Store} {c : Call} {L : Ledger} {m : Machine} {e : Event} {ts : List GoString}

/-- The machine keeps the ledger: on its file, and in memory while it is up. -/
structure Keeps (m : Machine) (L : Ledger) : Prop where
  sound : L.Sound
  db : m.db.Keeps L
  up : ∀ s, m = .up s → s.Inv ∧ s.get = L

theorem keeps_up (hs : s.Inv) (hv : ∀ id l, s.get id = some l → ValidUTF8 id) :
    (up s).Keeps s.get := by
  refine ⟨⟨hs.indexed.own_id, hv _ _, hs.clean, hs.ports.inj, hs.indexed.token_inj⟩, hs.rows, ?_⟩
  rintro _ ⟨⟩
  exact ⟨hs, rfl⟩

theorem Keeps.down (h : m.Keeps L) : (down m.db).Keeps L :=
  ⟨h.sound, h.db, fun _ he => nomatch he⟩

theorem valid_run (hs : s.Inv) (hv : ∀ id l, s.get id = some l → ValidUTF8 id)
    (hc : ∀ p env, c = .create p env → ValidUTF8 p.leaseID) :
    ∀ id l, (c.run s).store.get id = some l → ValidUTF8 id := by
  intro id l hl
  rcases Call.origin hs hl with ⟨l', hl', _⟩ | ⟨_, p, env, rfl, hid, _⟩
  · exact hv id l' hl'
  · rw [← hid]
    exact hc p env rfl

theorem dbAt_cases (h : Call.Spec s c) (k : Nat) :
    (c.run s).dbAt k = s.db ∨ (c.run s).dbAt k = (c.run s).store.db := by
  rw [Outcome.dbAt]
  cases hk : ((c.run s).points ++ [(c.run s).store])[k]? with
  | none => exact .inr rfl
  | some q =>
    rcases List.mem_append.1 (List.mem_of_getElem? hk) with hq | hq
    · exact h.points q hq
    · rw [List.mem_singleton.1 hq]
      exact .inr rfl

/-- One event, in lock-step with the ledger. -/
theorem Keeps.step (h : m.Keeps L) (hv : e.ValidID) (hn : (e.token.toList ++ ts).Nodup)
    (hf : Call.Fresh L (e.token.toList ++ ts)) :
    ∃ L', Committed L (m.step e).2 L' ∧ (m.step e).1.Keeps L' ∧ Call.Fresh L' ts := by
  have hsame : Call.Fresh L ts := fun id l hl hm => hf id l hl (List.mem_append_right _ hm)
  cases m with
  | up s =>
    obtain ⟨hs, rfl⟩ := h.up s rfl
    cases e with
    | call c =>
      have hsp := Call.spec_of_fresh hs c hf
      have hv' := valid_run (c := c) hs (fun _ _ => h.sound.valid) (by
        rintro p env rfl
        exact hv p env rfl)
      refine ⟨(c.run s).store.get, ?_, keeps_up hsp.inv hv', hf.run hs hn⟩
      rw [hsp.get]
      exact .acked .nil
    | crash c k =>
      have hsp := Call.spec_of_fresh hs c hf
      have hv' := valid_run (c := c) hs (fun _ _ => h.sound.valid) (by
        rintro p env rfl
        exact hv p env rfl)
      rcases dbAt_cases hsp k with hk | hk
      · refine ⟨s.get, .absent .nil, ?_, hsame⟩
        rw [Machine.step, hk]
        exact h.down
      · refine ⟨(c.run s).store.get, ?_, ?_, hf.run hs hn⟩
        · rw [hsp.get]
          exact .present .nil
        · rw [Machine.step, hk]
          exact (keeps_up hsp.inv hv').down
    | stop => exact ⟨s.get, .nil, h.down, hsame⟩
    | boot => exact ⟨s.get, .nil, h, hsame⟩
  | down db =>
    cases e with
    | call => exact ⟨L, .nil, h, hsame⟩
    | crash => exact ⟨L, .nil, h, hsame⟩
    | stop => exact ⟨L, .nil, h, hsame⟩
    | boot min max now commits =>
      cases commits with
      | false => exact ⟨L, .nil, h, hsame⟩
      | true =>
        obtain ⟨s, ho, hop⟩ := openStore_spec h.sound h.db min max now
        have ho : openStore db min max now true = some s := ho
        have hk := keeps_up hop.inv fun id l hl => by
          rw [hop.get] at hl
          exact h.sound.reopen.valid hl
        rw [hop.get] at hk
        refine ⟨L.reopen min max now, ?_, ?_, ?_⟩
        · simp only [Machine.step, ho]
          exact .booted .nil
        · simp only [Machine.step, ho]
          exact hk
        · intro id l hl
          exact hsame id l (Ledger.reopen_eq_some.1 hl).1

theorem Keeps.run (h : m.Keeps L) (es : List Event) (ts : List GoString)
    (hv : ∀ e ∈ es, e.ValidID)
    (hn : (Event.mints es ++ ts).Nodup) (hf : Call.Fresh L (Event.mints es ++ ts)) :
    ∃ L', Committed L (m.run es).2 L' ∧ (m.run es).1.Keeps L' ∧ Call.Fresh L' ts := by
  induction es generalizing m L with
  | nil => exact ⟨L, .nil, h, hf⟩
  | cons e es ih =>
    rw [Event.mints_cons, List.append_assoc] at hn hf
    obtain ⟨L₁, hc₁, hk₁, hf₁⟩ := h.step (hv e List.mem_cons_self) hn hf
    obtain ⟨L₂, hc₂, hk₂, hf₂⟩ := ih hk₁ (fun e he => hv e (List.mem_cons_of_mem _ he))
      (List.nodup_append.1 hn).2.1 hf₁
    exact ⟨L₂, hc₁.append hc₂, hk₂, hf₂⟩

theorem keeps_empty : (down DB.empty).Keeps fun _ => none :=
  ⟨by constructor <;> simp, fun id => GoMap.get_empty id, fun _ he => nomatch he⟩

/-- Whatever has happened to the machine, `Open` finds exactly the committed leases that are
live and in range, and drops every other row. -/
theorem reopen_after_run (es : List Event) (hv : ∀ e ∈ es, e.ValidID)
    (hn : (Event.mints es).Nodup) :
    ∃ L, Committed (fun _ => none) ((down DB.empty).run es).2 L ∧ ∀ min max now, ∃ s,
      openStore ((down DB.empty).run es).1.db min max now true = some s ∧
      (∀ id l, s.get id = some l ↔ L id = some l ∧ now < l.expiresAt ∧
        min ≤ l.allocatedPort ∧ l.allocatedPort ≤ max) ∧
      (∀ id, (s.db.rows[id]?).bind Row.unmarshal = s.get id) ∧
      (∀ id, (s.db.rows[id]?).isSome → (s.get id).isSome) ∧
      (∀ p, p ∈ s.alloc.used ↔ ∃ id l, s.get id = some l ∧ l.allocatedPort = p) ∧
      ∀ id id' l l', s.get id = some l → s.get id' = some l' →
        l.allocatedPort = l'.allocatedPort ∨ l.token = l'.token → id = id' := by
  obtain ⟨L, hc, hk, _⟩ := keeps_empty.run es [] hv (by rwa [List.append_nil])
    fun _ _ hl => nomatch hl
  refine ⟨L, hc, ?_⟩
  intro min max now
  obtain ⟨s, ho, hop⟩ := openStore_spec hk.sound hk.db min max now
  refine ⟨s, ho, ?_, ?_, ?_, hop.inv.ports.used, ?_⟩
  · intro id l
    rw [hop.get, Ledger.reopen_eq_some]
    simp [Lease.kept, and_assoc]
  · intro id
    rw [hop.inv.rows]
    cases hg : s.get id with
    | none => rfl
    | some l =>
      have hl := hg
      rw [hop.get] at hl
      have hown := hop.inv.indexed.own_id hg
      exact (hop.inv.clean hg).unmarshal_valid (by rw [hown]; exact hk.sound.reopen.valid hl)
  · intro id hrow
    rwa [hop.inv.rows, Option.isSome_map] at hrow
  · rintro id id' l l' hl hl' (hp | ht)
    · exact hop.inv.ports.inj hl hl' hp
    · exact hop.inv.indexed.token_inj hl hl' ht

/-- A create is answered, an extension and a create are lost, the range is moved twice. -/
def sampleEvents : List Event :=
  [.boot 20000 20001 0 true, .call (Store.sampleCreate (lit "a") 0 5),
    .crash (.extend (lit "a") 60 .commits) 1, .boot 20000 20001 7 true,
    .crash (Store.sampleCreate (lit "b") 1 6) 3, .boot 20001 20002 8 true, .stop]

theorem reopen_after_crashes :
    ∃ L, Committed (fun _ => none) ((down DB.empty).run sampleEvents).2 L ∧ ∃ s,
      openStore ((down DB.empty).run sampleEvents).1.db 20000 20002 9 true = some s ∧
      ∀ id l, s.get id = some l ↔ L id = some l ∧ 9 < l.expiresAt ∧
        20000 ≤ l.allocatedPort ∧ l.allocatedPort ≤ 20002 := by
  obtain ⟨L, hc, h⟩ := reopen_after_run sampleEvents (by
    intro e he p env hp
    simp only [sampleEvents, List.mem_cons, List.not_mem_nil, or_false] at he
    rcases he with rfl | rfl | rfl | rfl | rfl | rfl | rfl <;> cases hp <;> decide)
    (by decide)
  obtain ⟨s, ho, hg, _⟩ := h 20000 20002 9
  exact ⟨L, hc, s, ho, hg⟩

end Machine

end HyruleProxy
