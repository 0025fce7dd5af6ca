import HyruleProxy.Recovery
import HyruleProxy.DaemonInvariant

namespace HyruleProxy
set_option autoImplicit true

/-- The first point inside a call at which its transaction has committed, if it commits. -/
def Call.commitPoint (s : Store) (c : Call) : Option Nat :=
  match c, (c.run s).result with
  | .create p _, .lease (.ok _) => if (s.get p.leaseID).isNone then some 2 else none
  | .extend .., .lease (.ok _) => some 1
  | .revoke .., .done (.ok _) => some 1
  | .markExpired .., .done (.ok _) => some 1
  | .markExpiredIfBefore .., .expiry r => if r.removed then some 1 else none
  | _, _ => none

/-- A daemon with its clock, the sweeps under way, each with its cutoff and the ids still to do,
and the calls committed so far with their times. -/
structure Clocked where
  machine : Machine
  clock : Time
  sweeps : List (Time × List GoString)
  history : List (Time × Call)

/-- What can happen next. A call ends, or the process dies inside it at the point `die`; the
cutoff of a sweep is a clock reading that may be `back` old when its snapshot is taken. -/
inductive Tick where
  | wait (d : Nat)
  | create (p : CreateParams) (env : CreateEnv) (die : Option Nat)
  | extend (id : GoString) (d : Duration) (o : Persist) (die : Option Nat)
  | revoke (id : GoString) (commits : Bool) (die : Option Nat)
  | sweep (back : Nat)
  | mark (j i : Nat) (commits : Bool) (die : Option Nat)
  | stop
  | boot (commits : Bool)

namespace Clocked

/-- The call of a tick and where the process dies in it. -/
def call (σ : Clocked) : Tick → Option (Call × Option Nat)
  | .create p env die => some (.create p { env with now := σ.clock }, die)
  | .extend id d o die => some (.extend id d o, die)
  | .revoke id commits die => some (.revoke id commits, die)
  | .mark j i commits die =>
    match σ.sweeps[j]? with
    | none => none
    | some (cutoff, todo) => todo[i]?.map fun id => (.markExpiredIfBefore id cutoff commits, die)
  | _ => none

/-- A sweep goes on to its next id. -/
def rest (σ : Clocked) : Tick → List (Time × List GoString)
  | .mark j i _ _ => σ.sweeps.modify j fun sweep => (sweep.1, sweep.2.eraseIdx i)
  | _ => σ.sweeps

def commits (s : Store) (c : Call) (die : Option Nat) : Bool :=
  (c.commitPoint s).any fun j => die.all (decide <| j ≤ ·)

def perform (σ : Clocked) (s : Store) (sweeps : List (Time × List GoString)) (c : Call)
    (die : Option Nat) : Clocked where
  machine := match die with
    | none => .up (c.run s).store
    | some k => .down ((c.run s).dbAt k)
  clock := σ.clock
  sweeps := if die.isNone then sweeps else []
  history := if commits s c die then σ.history ++ [(σ.clock, c)] else σ.history

def tick (min max : Int) (σ : Clocked) (x : Tick) : Clocked :=
  match x, σ.machine with
  | .wait d, _ => { σ with clock := σ.clock + d }
  | .boot commits, .down db =>
    match openStore db min max σ.clock commits with
    | none => σ
    | some s => { σ with machine := .up s }
  | .stop, .up s => { σ with machine := .down s.db, sweeps := [] }
  | .sweep back, .up s =>
    { σ with sweeps := σ.sweeps ++ [(σ.clock - back, s.expiredBefore (σ.clock - back))] }
  | x, .up s =>
    match σ.call x with
    | none => σ
    | some (c, die) => σ.perform s (σ.rest x) c die
  | _, _ => σ

def run (min max : Int) (σ : Clocked) (xs : List Tick) : Clocked := xs.foldl (tick min max) σ

/-- A daemon that has not been started yet on an empty file. -/
def start (t : Time) : Clocked := ⟨.down DB.empty, t, [], []⟩

/-- The lease a `Create` or `Extend` acknowledges. -/
def acks (σ : Clocked) (x : Tick) : Option Lease :=
  match σ.machine, σ.call x with
  | .up s, some (c, none) =>
    match (c.run s).result with
    | .lease (.ok l) => some l
    | _ => none
  | _, _ => none

end Clocked

namespace Tick

def token : Tick → Option GoString
  | create _ env _ => mintToken env.rand
  | _ => none

def mints (xs : List Tick) : List GoString := xs.filterMap token

/-- Ids are UTF-8 and extensions positive. -/
def Paying : Tick → Prop
  | create p _ _ => ValidUTF8 p.leaseID
  | extend _ d _ _ => 0 < d
  | _ => True

instance : DecidablePred Paying
  | create p _ _ => inferInstanceAs (Decidable (ValidUTF8 p.leaseID))
  | extend _ d _ _ => inferInstanceAs (Decidable (0 < d))
  | wait _ | revoke .. | sweep _ | mark .. | stop | boot _ => isTrue trivial

theorem mints_cons (x : Tick) (xs : List Tick) : mints (x :: xs) = x.token.toList ++ mints xs :=
  filterMap_cons_toList token x xs

end Tick

section Commit

variable {s : Store} {c : Call} {id : GoString}

theorem Call.commitPoint_create {p : CreateParams} {env : CreateEnv} {l : Lease}
    (hl : s.get p.leaseID = some l) : (create p env).commitPoint s = none := by
  simp [commitPoint, run, Outcome.map, Store.create, hl]

/-- Before its commit point a call has not touched the file, and from there on it has done so;
a call without one changes neither the file nor the ledger. -/
theorem Call.commit_spec (hs : s.Inv) (c : Call) :
    (c.commitPoint s = none ∧ (c.run s).store.get = s.get ∧ ∀ k, (c.run s).dbAt k = s.db) ∨
      ∃ j, c.commitPoint s = some j ∧
        ∀ k, (c.run s).dbAt k = if j ≤ k then (c.run s).store.db else s.db := by
  have hsame {r : Reply} (h : c.run s = ⟨r, s, [s]⟩) :
      (c.run s).store.get = s.get ∧ ∀ k, (c.run s).dbAt k = s.db := by
    rw [h]
    refine ⟨rfl, ?_⟩
    rintro (_ | _ | k) <;> rfl
  have hremove {r : Reply} {i : GoString} {b : Bool} {l : Lease} (h : s.Removes i b l)
      (hr : c.run s = ⟨r, (s.remove i b).store, (s.remove i b).points⟩) :
      ∀ k, (c.run s).dbAt k = if 1 ≤ k then (c.run s).store.db else s.db := by
    rw [hr, h.outcome]
    rintro (_ | _ | _ | _ | _ | k) <;> rfl
  cases c with
  | create p env =>
    rcases s.create_cases hs.cursor p env with ⟨l, hg, he⟩ | ⟨a, hf⟩ | ⟨l, a, db, hc⟩
    · have hrun : (create p env).run s = ⟨.lease (.ok l), s, [s]⟩ := by
        simp only [run, Outcome.map, he]
      exact .inl ⟨by simp [commitPoint, hrun, hg], hsame hrun⟩
    · obtain ⟨e, he⟩ := hf.result
      have hst : ((create p env).run s).store = { s with alloc := a } := hf.store
      refine .inl ⟨by simp [commitPoint, run, Outcome.map, he], by rw [hst]; rfl, ?_⟩
      intro k
      rw [Outcome.dbAt]
      cases hk : (((create p env).run s).points ++ [((create p env).run s).store])[k]? with
      | none =>
        rw [hst]
        rfl
      | some q =>
        rcases List.mem_append.1 (List.mem_of_getElem? hk) with hq | hq
        · exact hf.points q hq
        · rw [List.mem_singleton.1 hq, hst]
          rfl
    · have hrun : (create p env).run s = _ := congrArg (Outcome.map Reply.lease) hc.outcome
      refine .inr ⟨2, by simp [commitPoint, hrun, Outcome.map, hc.absent], ?_⟩
      rw [hrun]
      rintro (_ | _ | _ | _ | k) <;> rfl
  | extend i d o =>
    rcases s.extend_cases i d o with ⟨e, he⟩ | ⟨l, r, db, hr⟩
    · have hrun : (extend i d o).run s = ⟨.lease (.error e), s, [s]⟩ := by
        simp only [run, Outcome.map, he]
      exact .inl ⟨by simp [commitPoint, hrun], hsame hrun⟩
    · have hrun : (extend i d o).run s = _ := congrArg (Outcome.map Reply.lease) hr.outcome
      refine .inr ⟨1, by simp [commitPoint, hrun, Outcome.map], ?_⟩
      rw [hrun]
      rintro (_ | _ | _ | k) <;> rfl
  | revoke i b =>
    rcases s.remove_cases i b with ⟨e, he⟩ | ⟨l, hr⟩
    · have hrun : (revoke i b).run s = ⟨.done (.error e), s, [s]⟩ := by
        simp only [run, Outcome.map, Store.revoke, he]
      exact .inl ⟨by simp [commitPoint, hrun], hsame hrun⟩
    · refine .inr ⟨1, ?_, hremove hr rfl⟩
      simp [commitPoint, run, Outcome.map, Store.revoke, hr.outcome]
  | markExpired i b =>
    rcases s.remove_cases i b with ⟨e, he⟩ | ⟨l, hr⟩
    · have hrun : (markExpired i b).run s = ⟨.done (.error e), s, [s]⟩ := by
        simp only [run, Outcome.map, Store.markExpired, he]
      exact .inl ⟨by simp [commitPoint, hrun], hsame hrun⟩
    · refine .inr ⟨1, ?_, hremove hr rfl⟩
      simp [commitPoint, run, Outcome.map, Store.markExpired, hr.outcome]
  | markExpiredIfBefore i cutoff b =>
    rcases s.markExpiredIfBefore_cases i cutoff b with ⟨w, e, he⟩ | ⟨l, hr, _, he⟩
    · have hrun : (markExpiredIfBefore i cutoff b).run s = ⟨.expiry ⟨w, false, e⟩, s, [s]⟩ := by
        simp only [run, Outcome.map, he]
      exact .inl ⟨by simp [commitPoint, hrun], hsame hrun⟩
    · have hrun : (markExpiredIfBefore i cutoff b).run s = ⟨.expiry ⟨true, true, none⟩,
          (s.remove i b).store, (s.remove i b).points⟩ := by
        simp only [run, Outcome.map, he]
      exact .inr ⟨1, by simp [commitPoint, hrun], hremove hr hrun⟩

end Commit

namespace Clocked

variable {min max : Int} {σ σ' : Clocked} {L L' : Ledger} {x : Tick} {s : Store} {c : Call}
  {die : Option Nat} {ts : List GoString} {id : GoString} {l : Lease} {e : Time}

/-- The daemon keeps the ledger, all of it in the port range, and no sweep is ahead of time. -/
structure Good (min max : Int) (σ : Clocked) (L : Ledger) : Prop where
  keeps : σ.machine.Keeps L
  range : ∀ id l, L id = some l → min ≤ l.allocatedPort ∧ l.allocatedPort ≤ max
  alloc : ∀ s, σ.machine = .up s → s.alloc.min = min ∧ s.alloc.max = max
  cutoff : ∀ sweep ∈ σ.sweeps, sweep.1 ≤ σ.clock

/-- What a tick does to the ledger: nothing, one committed call, or the pruning of `Open`. -/
inductive Change (min max : Int) (σ : Clocked) (L : Ledger) (x : Tick) (σ' : Clocked) :
    Ledger → Prop where
  | same : σ.clock ≤ σ'.clock → σ'.history = σ.history → Change min max σ L x σ' L
  | commit (s : Store) (c : Call) (die : Option Nat) : σ.machine = .up s →
      σ.call x = some (c, die) → s.Inv → L = s.get → (c.commitPoint s).isSome →
      σ.clock ≤ σ'.clock → σ'.history = σ.history ++ [(σ.clock, c)] →
      Change min max σ L x σ' (c.run s).store.get
  | boot : σ.clock ≤ σ'.clock → σ'.history = σ.history →
      Change min max σ L x σ' (L.reopen min max σ.clock)

theorem call_token (h : σ.call x = some (c, die)) : c.token = x.token := by
  cases x with
  | create => cases h; rfl
  | extend => cases h; rfl
  | revoke => cases h; rfl
  | mark j i commits die =>
    rw [call] at h
    split at h
    · cases h
    · obtain ⟨id, _, he⟩ := Option.map_eq_some_iff.1 h
      cases he
      rfl
  | _ => cases h

theorem call_valid (h : σ.call x = some (c, die)) (hp : x.Paying) {p : CreateParams}
    {env : CreateEnv} (hc : c = .create p env) : ValidUTF8 p.leaseID := by
  subst hc
  cases x with
  | create => cases h; exact hp
  | extend => cases h
  | revoke => cases h
  | mark j i commits die =>
    rw [call] at h
    split at h
    · cases h
    · obtain ⟨id, _, he⟩ := Option.map_eq_some_iff.1 h
      cases he
  | _ => cases h

theorem tick_call (hm : σ.machine = .up s) (hc : σ.call x = some (c, die)) :
    tick min max σ x = σ.perform s (σ.rest x) c die := by
  cases x with
  | create => simp only [tick, hm, hc]
  | extend => simp only [tick, hm, hc]
  | revoke => simp only [tick, hm, hc]
  | mark => simp only [tick, hm, hc]
  | _ => cases hc

theorem tick_none (min max : Int) (hm : σ.machine = .up s) (hc : σ.call x = none) :
    (∃ d, x = .wait d) ∨ (∃ back, x = .sweep back) ∨ x = .stop ∨ tick min max σ x = σ := by
  cases x with
  | wait d => exact .inl ⟨d, rfl⟩
  | sweep back => exact .inr (.inl ⟨back, rfl⟩)
  | stop => exact .inr (.inr (.inl rfl))
  | boot => exact .inr (.inr (.inr (by simp only [tick, hm, hc])))
  | create => cases hc
  | extend => cases hc
  | revoke => cases hc
  | mark => exact .inr (.inr (.inr (by simp only [tick, hm, hc])))

theorem rest_cutoff (h : ∀ sweep ∈ σ.sweeps, sweep.1 ≤ σ.clock) (x : Tick) :
    ∀ sweep ∈ σ.rest x, sweep.1 ≤ σ.clock := by
  cases x with
  | mark j i commits die =>
    intro sweep hs
    obtain ⟨n, hn⟩ := List.getElem?_of_mem hs
    rw [rest, List.getElem?_modify] at hn
    obtain ⟨u, hu, he⟩ := Option.map_eq_some_iff.1 hn
    have hle := h u (List.mem_of_getElem? hu)
    split at he
    · cases he
      exact hle
    · cases he
      exact hle
  | _ => exact h

/-- A call that ends or dies: its commit decides which ledger the daemon keeps. -/
theorem Good.perform (h : Good min max σ L) (hm : σ.machine = .up s)
    (hx : σ.call x = some (c, die)) (hp : x.Paying) (hn : (c.token.toList ++ ts).Nodup)
    (hf : Call.Fresh L (c.token.toList ++ ts)) :
    ∃ L', Good min max (σ.perform s (σ.rest x) c die) L' ∧ Call.Fresh L' ts ∧
      Change min max σ L x (σ.perform s (σ.rest x) c die) L' := by
  obtain ⟨hs, rfl⟩ := h.keeps.up s hm
  obtain ⟨hmin, hmax⟩ := h.alloc s hm
  have hsp := Call.spec_of_fresh hs c hf
  have hv := Machine.valid_run (c := c) hs (fun _ _ => h.keeps.sound.valid)
    fun p env hc => call_valid hx hp hc
  have hkeeps := Machine.keeps_up hsp.inv hv
  have hrange : ∀ id l, (c.run s).store.get id = some l →
      min ≤ l.allocatedPort ∧ l.allocatedPort ≤ max := by
    intro id l hl
    have hr := hsp.inv.ports.range hl
    rwa [hsp.min, hsp.max, hmin, hmax] at hr
  have hcut : ∀ sweep ∈ (σ.perform s (σ.rest x) c die).sweeps, sweep.1 ≤ σ.clock := by
    intro sweep hsw
    simp only [Clocked.perform] at hsw
    split at hsw
    · exact rest_cutoff h.cutoff x sweep hsw
    · cases hsw
  have halloc : ∀ s', (σ.perform s (σ.rest x) c die).machine = .up s' →
      s'.alloc.min = min ∧ s'.alloc.max = max := by
    intro s' hs'
    cases die with
    | none =>
      cases hs'
      exact ⟨hsp.min.trans hmin, hsp.max.trans hmax⟩
    | some k => cases hs'
  have hsame : Call.Fresh s.get ts := fun id l hl ht => hf id l hl (List.mem_append_right _ ht)
  rcases Call.commit_spec hs c with ⟨hnone, hget, hdb⟩ | ⟨j, hj, hdb⟩
  · -- nothing commits, at whichever point the call stops
    refine ⟨s.get, ⟨?_, h.range, halloc, hcut⟩, hsame, .same le_rfl ?_⟩
    · cases die with
      | none =>
        rw [hget] at hkeeps
        exact hkeeps
      | some k =>
        have hd := h.keeps.down
        rw [hm] at hd
        simpa only [Clocked.perform, hdb, Machine.db] using hd
    · simp only [Clocked.perform, commits, hnone, Option.any_none, Bool.false_eq_true, if_false]
  · by_cases hc : commits s c die = true
    · refine ⟨(c.run s).store.get, ⟨?_, hrange, halloc, hcut⟩, hf.run hs hn,
        .commit s c die hm hx hs rfl (by rw [hj]; rfl) le_rfl ?_⟩
      · cases die with
        | none => exact hkeeps
        | some k =>
          have hle : j ≤ k := by simpa [commits, hj] using hc
          simp only [Clocked.perform, hdb, if_pos hle]
          exact hkeeps.down
      · simp only [Clocked.perform, if_pos hc]
    · cases die with
      | none => simp [commits, hj] at hc
      | some k =>
        have hlt : ¬ j ≤ k := by simpa [commits, hj] using hc
        refine ⟨s.get, ⟨?_, h.range, halloc, hcut⟩, hsame, .same le_rfl ?_⟩
        · have hd := h.keeps.down
          rw [hm] at hd
          simpa only [Clocked.perform, hdb, if_neg hlt, Machine.db] using hd
        · simp only [Clocked.perform, if_neg hc]

theorem Good.tick (h : Good min max σ L) (hp : x.Paying) (hn : (x.token.toList ++ ts).Nodup)
    (hf : Call.Fresh L (x.token.toList ++ ts)) :
    ∃ L', Good min max (tick min max σ x) L' ∧ Call.Fresh L' ts ∧
      Change min max σ L x (tick min max σ x) L' := by
  have hsame : Call.Fresh L ts := fun id l hl ht => hf id l hl (List.mem_append_right _ ht)
  have hwait (d : Nat) : Good min max { σ with clock := σ.clock + d } L :=
    ⟨h.keeps, h.range, h.alloc, fun sweep hsw => (h.cutoff sweep hsw).trans (by simp)⟩
  cases hm : σ.machine with
  | up s =>
    cases hc : σ.call x with
    | some call =>
      obtain ⟨c, die⟩ := call
      rw [tick_call hm hc]
      rw [← call_token hc] at hn hf
      exact h.perform hm hc hp hn hf
    | none =>
      rcases tick_none min max hm hc with ⟨d, rfl⟩ | ⟨back, rfl⟩ | rfl | he
      · exact ⟨L, hwait d, hsame, .same (by simp [Clocked.tick]) rfl⟩
      · have he : Clocked.tick min max σ (.sweep back) = { σ with
            sweeps := σ.sweeps ++ [(σ.clock - back, s.expiredBefore (σ.clock - back))] } := by
          simp only [Clocked.tick, hm]
        rw [he]
        refine ⟨L, ⟨h.keeps, h.range, h.alloc, ?_⟩, hsame, .same le_rfl rfl⟩
        intro sweep hsw
        rcases List.mem_append.1 hsw with hsw | hsw
        · exact h.cutoff sweep hsw
        · rw [List.mem_singleton.1 hsw]
          simp
      · have hd := h.keeps.down
        rw [hm] at hd
        simp only [Clocked.tick, hm]
        exact ⟨L, ⟨hd, h.range, (fun _ he => nomatch he), (fun _ he => nomatch he)⟩, hsame,
          .same le_rfl rfl⟩
      · rw [he]
        exact ⟨L, h, hsame, .same le_rfl rfl⟩
  | down db =>
    have hk := h.keeps
    rw [hm] at hk
    cases x with
    | wait d => exact ⟨L, hwait d, hsame, .same (by simp [Clocked.tick]) rfl⟩
    | boot commits =>
      cases commits with
      | false =>
        have he : Clocked.tick min max σ (.boot false) = σ := by
          simp only [Clocked.tick, hm]
          rfl
        rw [he]
        exact ⟨L, h, hsame, .same le_rfl rfl⟩
      | true =>
        obtain ⟨s, ho, hop⟩ := openStore_spec hk.sound hk.db min max σ.clock
        have ho : openStore db min max σ.clock true = some s := ho
        have hks := Machine.keeps_up hop.inv fun id l hl => by
          rw [hop.get] at hl
          exact hk.sound.reopen.valid hl
        rw [hop.get] at hks
        simp only [Clocked.tick, hm, ho]
        refine ⟨L.reopen min max σ.clock, ⟨hks, ?_, ?_, h.cutoff⟩, ?_, .boot le_rfl rfl⟩
        · intro id l hl
          exact Lease.kept_range (Ledger.reopen_eq_some.1 hl).2
        · rintro s' ⟨⟩
          exact ⟨hop.min, hop.max⟩
        · intro id l hl
          exact hsame id l (Ledger.reopen_eq_some.1 hl).1
    | _ =>
      simp only [Clocked.tick, hm]
      exact ⟨L, h, hsame, .same le_rfl rfl⟩

/-- The durations by which the lease was extended in a history. -/
def extensions (id : GoString) (H : List (Time × Call)) : List Duration :=
  H.filterMap fun y =>
    match y.2 with
    | .extend i d _ => if i = id then some d else none
    | _ => none

/-- The lease was created in the history, not created again since, and its expiry is its time of
creation plus its first duration and its extensions since. -/
def Account (H : List (Time × Call)) (id : GoString) (l : Lease) : Prop :=
  ∃ H₁ t p env H₂, H = H₁ ++ (t, .create p env) :: H₂ ∧ p.leaseID = id ∧
    mintToken env.rand = some l.token ∧
    (∀ y ∈ H₂, ∀ p' env', y.2 = .create p' env' → p'.leaseID ≠ id) ∧
    l.createdAt = t ∧ l.expiresAt = t + p.duration + (extensions id H₂).sum

theorem call_now {p : CreateParams} {env : CreateEnv}
    (h : σ.call x = some (.create p env, die)) : env.now = σ.clock := by
  cases x with
  | create => cases h; rfl
  | extend => cases h
  | revoke => cases h
  | mark j i commits die =>
    rw [call] at h
    split at h
    · cases h
    · obtain ⟨id, _, he⟩ := Option.map_eq_some_iff.1 h
      cases he
  | _ => cases h

theorem expiry_commit (hs : s.Inv) (hc : (c.commitPoint s).isSome) {l l' : Lease}
    (hl : s.get id = some l) (hl' : (c.run s).store.get id = some l') (t : Time) :
    l'.expiresAt = l.expiresAt + (extensions id [(t, c)]).sum := by
  by_cases hx : ∃ d o, c = .extend id d o
  · obtain ⟨d, o, rfl⟩ := hx
    rcases s.extend_cases id d o with ⟨e, he⟩ | ⟨l₀, r, db, hr⟩
    · simp [Call.commitPoint, Call.run, Outcome.map, he] at hc
    · have hu : (Call.run s (.extend id d o)).store.get = _ := hs.get_renews hr
      rw [hu, Function.update_self] at hl'
      rw [hr.get] at hl
      cases hl
      cases hl'
      simp [extensions]
  · have hnil : extensions id [(t, c)] = [] := by
      cases c with
      | extend i d o =>
        have hne : i ≠ id := by
          rintro rfl
          exact hx ⟨d, o, rfl⟩
        simp [extensions, hne]
      | _ => rfl
    rw [hnil, List.sum_nil, add_zero]
    rcases Call.fate (c := c) hs hl with hg | ⟨d, rfl, _⟩ | ⟨hg, _⟩
    · rw [hg] at hl'
      cases hl'
      rfl
    · exact absurd ⟨d, _, rfl⟩ hx
    · rw [hg] at hl'
      cases hl'

theorem account_change (h : ∀ id l, L id = some l → Account σ.history id l)
    (hc : Change min max σ L x σ' L') : ∀ id l, L' id = some l → Account σ'.history id l := by
  cases hc with
  | same _ hh =>
    rw [hh]
    exact h
  | boot _ hh =>
    rw [hh]
    intro id l hl
    exact h id l (Ledger.reopen_eq_some.1 hl).1
  | commit s c die hm hx hs hL hp _ hh =>
    subst hL
    rw [hh]
    intro id l hl
    rcases Call.origin hs hl with ⟨l', hl', he⟩ | ⟨hnone, p, env, rfl, hid, ht, _, hnew⟩
    · obtain ⟨H₁, t, p, env, H₂, hH, hid, ht, hno, hca, hex⟩ := h id l' hl'
      refine ⟨H₁, t, p, env, H₂ ++ [(σ.clock, c)], by simp [hH], hid, by rw [he]; exact ht, ?_,
        by rw [he]; exact hca, ?_⟩
      · intro y hy p' env' hy'
        rcases List.mem_append.1 hy with hy | hy
        · exact hno y hy p' env' hy'
        · rw [List.mem_singleton.1 hy] at hy'
          rintro rfl
          subst hy'
          rw [Call.commitPoint_create hl'] at hp
          cases hp
      · rw [expiry_commit hs hp hl' hl σ.clock, hex]
        rw [extensions, extensions, extensions, List.filterMap_append, List.sum_append, add_assoc]
    · refine ⟨σ.history, σ.clock, p, env, [], rfl, hid, ht, (fun _ hy => nomatch hy), ?_, ?_⟩
      · rw [hnew]
        exact call_now hx
      · rw [hnew]
        simp [Store.newLease, call_now hx, extensions]

/-- The tokens minted by the calls of a history. -/
def minted (H : List (Time × Call)) : List GoString := H.filterMap fun y => y.2.token

theorem minted_change (hn : (minted σ.history ++ (x.token.toList ++ ts)).Nodup)
    (hc : Change min max σ L x σ' L') : (minted σ'.history ++ ts).Nodup := by
  cases hc with
  | same _ hh =>
    rw [hh]
    exact hn.sublist (List.Sublist.append_left (List.sublist_append_right _ _) _)
  | boot _ hh =>
    rw [hh]
    exact hn.sublist (List.Sublist.append_left (List.sublist_append_right _ _) _)
  | commit s c die hm hx hs hL hp _ hh =>
    have hm : minted σ'.history = minted σ.history ++ x.token.toList := by
      rw [hh, ← call_token hx, minted, List.filterMap_append]
      rfl
    rw [hm, List.append_assoc]
    exact hn

theorem change_history (hc : Change min max σ L x σ' L') :
    ∃ H, σ'.history = σ.history ++ H := by
  cases hc with
  | same _ hh => exact ⟨[], by simp [hh]⟩
  | boot _ hh => exact ⟨[], by simp [hh]⟩
  | commit s c die _ _ _ _ _ _ hh => exact ⟨_, hh⟩

theorem change_clock (hc : Change min max σ L x σ' L') : σ.clock ≤ σ'.clock := by
  cases hc with
  | same h => exact h
  | boot h => exact h
  | commit s c die _ _ _ _ _ h => exact h

/-- What is known after a run, the tokens of the ticks still to come included. -/
structure Ready (min max : Int) (σ : Clocked) (L : Ledger) (ts : List GoString) : Prop
    extends Good min max σ L where
  fresh : Call.Fresh L ts
  nodup : (minted σ.history ++ ts).Nodup
  account : ∀ id l, L id = some l → Account σ.history id l

theorem Ready.tick (h : Ready min max σ L (x.token.toList ++ ts)) (hp : x.Paying) :
    ∃ L', Ready min max (tick min max σ x) L' ts ∧
      Change min max σ L x (tick min max σ x) L' := by
  obtain ⟨L', hg, hf, hc⟩ := h.toGood.tick hp (List.nodup_append.1 h.nodup).2.1 h.fresh
  exact ⟨L', ⟨hg, hf, minted_change h.nodup hc, account_change h.account hc⟩, hc⟩

theorem Ready.run (xs : List Tick) (h : Ready min max σ L (Tick.mints xs ++ ts))
    (hp : ∀ x ∈ xs, x.Paying) : ∃ L', Ready min max (run min max σ xs) L' ts ∧
      σ.clock ≤ (run min max σ xs).clock ∧ ∃ H, (run min max σ xs).history = σ.history ++ H := by
  induction xs generalizing σ L with
  | nil => exact ⟨L, h, le_rfl, [], by simp [Clocked.run]⟩
  | cons x xs ih =>
    rw [Tick.mints_cons, List.append_assoc] at h
    obtain ⟨L₁, h₁, hc⟩ := h.tick (hp x List.mem_cons_self)
    obtain ⟨L₂, h₂, hle, H₂, hH₂⟩ := ih h₁ fun y hy => hp y (List.mem_cons_of_mem _ hy)
    obtain ⟨H₁, hH₁⟩ := change_history hc
    exact ⟨L₂, h₂, (change_clock hc).trans hle, H₁ ++ H₂,
      hH₂.trans (by rw [hH₁, List.append_assoc])⟩

/-- A lease paid up to `e` survives a tick that ends before `e` and commits no revocation. -/
theorem hold_change (hg : Good min max σ L) (hp : x.Paying) (hc : Change min max σ L x σ' L')
    (ht : σ'.clock < e) (hno : ∀ y ∈ σ'.history.drop σ.history.length, ∀ b, y.2 ≠ .revoke id b)
    (hl : L id = some l) (he : e ≤ l.expiresAt) :
    ∃ l', L' id = some l' ∧ l'.token = l.token ∧ e ≤ l'.expiresAt := by
  cases hc with
  | same => exact ⟨l, hl, rfl, he⟩
  | boot hle hh =>
    refine ⟨l, Ledger.reopen_eq_some.2 ⟨hl, ?_⟩, rfl, he⟩
    have hr := hg.range id l hl
    have hlt : σ.clock < l.expiresAt := lt_of_le_of_lt hle (lt_of_lt_of_le ht he)
    simp [Lease.kept, hr, hlt]
  | commit s c die hm hx hs hL hcp hle hh =>
    subst hL
    rcases Call.fate (c := c) hs hl with hget | ⟨d, rfl, _, hget⟩ | ⟨_, hrem⟩
    · exact ⟨l, hget, rfl, he⟩
    · refine ⟨_, hget, rfl, ?_⟩
      have hd : 0 < d := by
        cases x with
        | extend => cases hx; exact hp
        | create => cases hx
        | revoke => cases hx
        | mark j i commits die =>
          rw [call] at hx
          split at hx
          · cases hx
          · obtain ⟨_, _, he⟩ := Option.map_eq_some_iff.1 hx
            cases he
        | _ => cases hx
      exact le_trans he (le_add_of_nonneg_right hd.le)
    · rw [hh, List.drop_left] at hno
      rcases hrem with ⟨rfl, _⟩ | ⟨rfl, _⟩ | ⟨cutoff, rfl, hcut, _⟩
      · exact absurd rfl (hno _ (List.mem_singleton_self _) true)
      · cases x with
        | mark j i commits die =>
          rw [call] at hx
          split at hx
          · cases hx
          · obtain ⟨_, _, he⟩ := Option.map_eq_some_iff.1 hx
            cases he
        | _ => cases hx
      · have hle' : cutoff ≤ σ.clock := by
          cases x with
          | mark j i commits die =>
            rw [call] at hx
            split at hx
            · cases hx
            · rename_i cut todo hsw
              obtain ⟨_, _, he⟩ := Option.map_eq_some_iff.1 hx
              cases he
              exact hg.cutoff _ (List.mem_of_getElem? hsw)
          | _ => cases hx
        exact absurd (hcut.trans (hle'.trans hle)) (not_le.2 (lt_of_lt_of_le ht he))

theorem hold_run (xs : List Tick) (h : Ready min max σ L (Tick.mints xs ++ ts))
    (hp : ∀ x ∈ xs, x.Paying) (ht : (run min max σ xs).clock < e)
    (hno : ∀ y ∈ (run min max σ xs).history.drop σ.history.length, ∀ b, y.2 ≠ .revoke id b)
    (hl : L id = some l) (he : e ≤ l.expiresAt) :
    ∃ L' l', (run min max σ xs).machine.Keeps L' ∧ L' id = some l' ∧ l'.token = l.token ∧
      e ≤ l'.expiresAt := by
  induction xs generalizing σ L l with
  | nil => exact ⟨L, l, h.keeps, hl, rfl, he⟩
  | cons x xs ih =>
    rw [Tick.mints_cons, List.append_assoc] at h
    obtain ⟨L₁, h₁, hc⟩ := h.tick (hp x List.mem_cons_self)
    have hp' : ∀ y ∈ xs, y.Paying := fun y hy => hp y (List.mem_cons_of_mem _ hy)
    obtain ⟨_, _, hle, H₂, hH₂⟩ := h₁.run xs hp'
    obtain ⟨H₁, hH₁⟩ := change_history hc
    have hrun : run min max σ (x :: xs) = run min max (tick min max σ x) xs := rfl
    rw [hrun] at ht hno ⊢
    rw [hH₂, hH₁, List.append_assoc, List.drop_left] at hno
    obtain ⟨l₁, hl₁, ht₁, he₁⟩ := hold_change h.toGood (hp x List.mem_cons_self) hc
      (lt_of_le_of_lt hle ht) (by
        rw [hH₁, List.drop_left]
        exact fun y hy => hno y (List.mem_append_left _ hy)) hl he
    obtain ⟨L₂, l₂, hk₂, hl₂, ht₂, he₂⟩ := ih h₁ hp' ht (by
      rw [hH₂, List.drop_left]
      exact fun y hy => hno y (List.mem_append_right _ hy)) hl₁ he₁
    exact ⟨L₂, l₂, hk₂, hl₂, ht₂.trans ht₁, he₂⟩

theorem ready_start (min max : Int) (t : Time) {ts : List GoString} (hn : ts.Nodup) :
    Ready min max (start t) (fun _ => none) ts :=
  ⟨⟨Machine.keeps_empty, (fun _ _ hl => nomatch hl), (fun _ he => nomatch he),
    (fun _ he => nomatch he)⟩, (fun _ _ hl => nomatch hl), hn, (fun _ _ hl => nomatch hl)⟩

theorem acks_get (hm : σ.machine = .up s) (hs : s.Inv)
    (hf : Call.Fresh s.get (x.token.toList ++ ts))
    (ha : σ.acks x = some l) :
    ∃ c, σ.call x = some (c, none) ∧ (c.run s).store.get l.leaseID = some l := by
  rw [acks, hm] at ha
  split at ha
  · rename_i s' c hs' hx
    cases hs'
    rw [← call_token hx] at hf
    have hsp := Call.spec_of_fresh hs c hf
    refine ⟨c, hx, ?_⟩
    have hget := hsp.get
    have hown : ∀ i, (c.run s).store.get = Function.update s.get i (some l) →
        (c.run s).store.get l.leaseID = some l := by
      intro i hi
      have hl : (c.run s).store.get i = some l := by rw [hi, Function.update_self]
      rw [hsp.inv.indexed.own_id hl]
      exact hl
    split at ha
    · rename_i l' hres
      cases ha
      rw [hres] at hget
      cases c with
      | create p env => exact hown p.leaseID hget
      | extend i d o => exact hown i hget
      | revoke => cases hres
      | markExpired => cases hres
      | markExpiredIfBefore => cases hres
    · cases ha
  · cases ha

/-- The token check, `RegisterConn` and `StartForward` refuse every lease that has expired, swept
or not. -/
structure Refuses (s : Store) (H : List (Time × Call)) (now : Time) : Prop where
  token : ∀ y ∈ H, ∀ p env T, y.2 = .create p env → mintToken env.rand = some T →
    (∀ l, s.get p.leaseID = some l → l.token = T → l.expiresAt ≤ now) →
    authByToken s T now = none
  register : ∀ (m : Leases) (conn : Nat) (id : GoString),
    (∀ l, s.get id = some l → l.expiresAt ≤ now) → m.registerConn (s.get id) now conn id = none
  start : ∀ (m : Leases) (conn : Nat) (id : GoString) (inUse : Int → Bool) (n : Nat),
    (∀ l, s.get id = some l → l.expiresAt ≤ now) →
    m.startForward (s.get id) now conn id inUse n = .error .leaseGone

theorem filterMap_inj {f : α → Option β} {xs : List α} (hn : (xs.filterMap f).Nodup) {a b : α}
    (ha : a ∈ xs) (hb : b ∈ xs) (hfa : f a = some z) (hfb : f b = some z) : a = b := by
  induction xs with
  | nil => cases ha
  | cons x xs ih =>
    have hmem : ∀ c ∈ xs, f c = some z → z ∈ xs.filterMap f :=
      fun c hc hfc => List.mem_filterMap.2 ⟨c, hc, hfc⟩
    cases hx : f x with
    | none =>
      rw [List.filterMap_cons_none hx] at hn
      refine ih hn ((List.mem_cons.1 ha).resolve_left ?_) ((List.mem_cons.1 hb).resolve_left ?_)
      · rintro rfl
        rw [hx] at hfa
        cases hfa
      · rintro rfl
        rw [hx] at hfb
        cases hfb
    | some w =>
      rw [List.filterMap_cons_some hx, List.nodup_cons] at hn
      rcases List.mem_cons.1 ha with ha | ha <;> rcases List.mem_cons.1 hb with hb | hb
      · rw [ha, hb]
      · rw [ha, hx] at hfa
        cases hfa
        exact absurd (hmem b hb hfb) hn.1
      · rw [hb, hx] at hfb
        cases hfb
        exact absurd (hmem a ha hfa) hn.1
      · exact ih hn.2 ha hb

theorem Ready.refuses (h : Ready min max σ L ts) (hm : σ.machine = .up s) (now : Time) :
    Refuses s σ.history now := by
  obtain ⟨hs, rfl⟩ := h.keeps.up s hm
  have hdead : ∀ id, (∀ l, s.get id = some l → l.expiresAt ≤ now) →
      liveAt now (s.get id) = none := by
    intro id hid
    cases hl : liveAt now (s.get id) with
    | none => rfl
    | some l =>
      obtain ⟨hg, hlt⟩ := liveAt_eq_some.1 hl
      exact absurd hlt (not_lt.2 (hid l hg))
  constructor
  · rintro ⟨t, c⟩ hy p env T rfl hT hexp
    cases ha : authByToken s T now with
    | none => rfl
    | some l =>
      obtain ⟨hg, ht⟩ := authByToken_get hs ha
      obtain ⟨H₁, t', p', env', H₂, hH, hid, ht', _⟩ := h.account _ l hg
      have hy' : (t', Call.create p' env') ∈ σ.history := by simp [hH]
      -- the token was minted once, so this is the lease of that creation
      have he := filterMap_inj (f := fun y : Time × Call => y.2.token)
        (List.nodup_append.1 h.nodup).1 hy hy' hT (by rw [← ht]; exact ht')
      cases he
      rw [← hid] at hg
      exact absurd (liveAt_eq_some.1 ha).2 (not_lt.2 (hexp l hg ht))
  · intro m conn id hid
    simp only [Leases.registerConn, hdead id hid]
  · intro m conn id inUse n hid
    simp only [Leases.startForward, hdead id hid]

/-- No paid time is lost and none given away: expiries are what was paid for, an acknowledged
lease lasts until its expiry unless it is revoked, and from then on it is refused. Ids have to be
UTF-8, since `Open` reads a lease back under the id that its JSON has, and tokens have to be
distinct, since a token that two leases share is good as long as one of them is. -/
theorem paid_time (min max : Int) (t : Time) (xs : List Tick) (hp : ∀ x ∈ xs, x.Paying)
    (hn : (Tick.mints xs).Nodup) :
    (∀ s id l, (run min max (start t) xs).machine = .up s → s.get id = some l →
      Account (run min max (start t) xs).history id l) ∧
    (∀ xs₁ x xs₂ l, xs = xs₁ ++ x :: xs₂ → (run min max (start t) xs₁).acks x = some l →
      (run min max (start t) xs).clock < l.expiresAt →
      (∀ y ∈ (run min max (start t) xs).history.drop (run min max (start t) xs₁).history.length,
        ∀ b, y.2 ≠ .revoke l.leaseID b) →
      ∃ l', l'.token = l.token ∧ l.expiresAt ≤ l'.expiresAt ∧
        (run min max (start t) xs).machine.db.rows[l.leaseID]? = some l'.marshal ∧
        ∀ s, (run min max (start t) xs).machine = .up s → s.get l.leaseID = some l') ∧
    ∀ s now, (run min max (start t) xs).machine = .up s →
      Refuses s (run min max (start t) xs).history now := by
  have h₀ := ready_start min max t hn
  rw [← List.append_nil (Tick.mints xs)] at h₀
  obtain ⟨L, h, _⟩ := h₀.run xs hp
  refine ⟨?_, ?_, fun s now hm => h.refuses hm now⟩
  · intro s id l hm hl
    rw [(h.keeps.up s hm).2] at hl
    exact h.account id l hl
  · intro xs₁ x xs₂ l hxs hack hclock hno
    have hrun : run min max (start t) xs =
        run min max (tick min max (run min max (start t) xs₁) x) xs₂ := by
      rw [hxs, run, List.foldl_append]
      rfl
    have hmints : Tick.mints xs = Tick.mints xs₁ ++ (x.token.toList ++ Tick.mints xs₂) := by
      rw [hxs, ← Tick.mints_cons, Tick.mints, List.filterMap_append]
      rfl
    rw [hmints] at hn
    obtain ⟨L₁, h₁, _⟩ := (ready_start min max t hn).run xs₁ fun y hy => hp y (by simp [hxs, hy])
    generalize run min max (start t) xs₁ = σ₁ at *
    cases hm : σ₁.machine with
    | down db => simp [acks, hm] at hack
    | up s =>
      obtain ⟨hs, hL₁⟩ := h₁.keeps.up s hm
      obtain ⟨c, hx, hget⟩ := acks_get hm hs (by rw [hL₁]; exact h₁.fresh) hack
      obtain ⟨L₂, h₂, hc⟩ := h₁.tick (hp x (by simp [hxs]))
      have hl₂ : L₂ l.leaseID = some l := by
        have htick : (tick min max σ₁ x).machine = .up (c.run s).store := by
          rw [tick_call hm hx]
          rfl
        rw [← (h₂.keeps.up _ htick).2]
        exact hget
      have hp₂ : ∀ y ∈ xs₂, y.Paying := fun y hy => hp y (by simp [hxs, hy])
      rw [← List.append_nil (Tick.mints xs₂)] at h₂
      obtain ⟨H₁, hH₁⟩ := change_history hc
      obtain ⟨_, _, _, H₂, hH₂⟩ := h₂.run xs₂ hp₂
      rw [hrun] at hclock hno ⊢
      rw [hH₂, hH₁, List.append_assoc, List.drop_left] at hno
      obtain ⟨L₃, l', hk, hl', ht', he'⟩ := hold_run xs₂ h₂ hp₂ hclock (by
        rw [hH₂, List.drop_left]
        exact fun y hy => hno y (List.mem_append_right _ hy)) hl₂ le_rfl
      refine ⟨l', ht', he', by rw [hk.db, hl']; rfl, ?_⟩
      intro s' hs'
      rw [(hk.up s' hs').2]
      exact hl'

/-- A lease is created, one extension fails, one commits and its process dies, a sweep finds
nothing to do, and the lease is extended once more. -/
def sampleTicks : List Tick :=
  [.boot true, .create ⟨lit "a", 100, []⟩ ⟨fun _ => false, some (List.replicate 20 0), 0, .commits⟩
      none, .wait 5, .extend (lit "a") 10 .updateFails none, .extend (lit "a") 20 .commits (some 1),
    .boot true, .wait 110, .sweep 3, .mark 0 0 true none, .extend (lit "a") 30 .commits none]

theorem paid_time_sample :
    ∃ s l, (run 20000 20001 (start 7) sampleTicks).machine = .up s ∧ s.get (lit "a") = some l ∧
      l.expiresAt = 157 ∧ Account (run 20000 20001 (start 7) sampleTicks).history (lit "a") l := by
  have hp : ∀ x ∈ sampleTicks, x.Paying := by decide
  have h := paid_time 20000 20001 7 sampleTicks hp (by decide)
  have hsome : (match (run 20000 20001 (start 7) sampleTicks).machine with
      | .up s => (s.get (lit "a")).map Lease.expiresAt
      | .down _ => none) = some 157 := by
    decide
  cases hm : (run 20000 20001 (start 7) sampleTicks).machine with
  | down db =>
    rw [hm] at hsome
    cases hsome
  | up s =>
    rw [hm] at hsome
    obtain ⟨l, hl, he⟩ := Option.map_eq_some_iff.1 hsome
    exact ⟨s, l, rfl, hl, he, h.1 s (lit "a") l hm hl⟩

def createTick (id : GoString) (d : Duration) : Tick :=
  .create ⟨id, d, []⟩ ⟨fun _ => false, some (List.replicate 20 0), 0, .commits⟩ none

def strayTicks : List Tick := [.boot true, createTick [0xff] 100, .stop, .boot true]

/-- Both leases have the token of the first, which has expired. -/
def sharingTicks : List Tick :=
  [.boot true, createTick (lit "a") 100, createTick (lit "b") 1000, .wait 500]

/-- Under an id that is not UTF-8 a lease is lost at a restart, before its expiry and without a
revocation; and a token minted twice is good for longer than the lease it was first minted for. -/
theorem lost_or_shared :
    ((Tick.mints strayTicks).Nodup ∧
      ∃ l s, (run 20000 20001 (start 7) [.boot true]).acks (createTick [0xff] 100) = some l ∧
        (run 20000 20001 (start 7) strayTicks).machine = .up s ∧
        (run 20000 20001 (start 7) strayTicks).clock < l.expiresAt ∧
        (∀ y ∈ (run 20000 20001 (start 7) strayTicks).history, ∀ b, y.2 ≠ .revoke l.leaseID b) ∧
        s.get l.leaseID = none) ∧
    (∀ x ∈ sharingTicks, x.Paying) ∧
      ∃ s, (run 20000 20001 (start 7) sharingTicks).machine = .up s ∧
        ¬Refuses s (run 20000 20001 (start 7) sharingTicks).history
          (run 20000 20001 (start 7) sharingTicks).clock := by
  refine ⟨⟨by decide, _, _, rfl, rfl, by decide, ?_, by decide⟩,
    by decide, _, rfl, ?_⟩
  · intro y hy b
    obtain rfl := List.mem_singleton.1 hy
    exact nofun
  · intro hr
    have hnone := hr.token _ List.mem_cons_self _ _ _ rfl rfl (by
      intro l hl _
      cases hl
      decide)
    exact Option.not_isSome_iff_eq_none.2 hnone (by decide)

end Clocked

end HyruleProxy
