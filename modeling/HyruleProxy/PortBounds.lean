import HyruleProxy.DaemonInvariant
import HyruleProxy.Disk
import HyruleProxy.Runs

namespace HyruleProxy
set_option autoImplicit true

/-- A lease whose port is in the range. -/
def Lease.Within (l : Lease) (lo hi : Int) : Prop := lo ≤ l.allocatedPort ∧ l.allocatedPort ≤ hi

/-- What holds of a store over any file: every lease in its memory has a port of the range, live
or not, and two leases may well share one. -/
structure Store.Within (s : Store) (lo hi : Int) : Prop where
  cells : ∀ l ∈ s.heap, l.Within lo hi
  min : s.alloc.min = lo
  max : s.alloc.max = hi
  cursor : s.alloc.InRange

namespace Store.Within

variable {s : Store} {lo hi : Int} {l : Lease} {id : GoString}

theorem get (h : s.Within lo hi) (hg : s.get id = some l) : l.Within lo hi := by
  obtain ⟨r, _, hl⟩ := get_eq_some.1 hg
  exact h.cells l (List.mem_of_getElem? hl)

theorem install (h : s.Within lo hi) (hl : l.Within lo hi) : (s.install l).Within lo hi := by
  refine ⟨?_, h.min, h.max, h.cursor⟩
  intro l' hl'
  rcases List.mem_append.1 hl' with hl' | hl'
  · exact h.cells l' hl'
  · rw [List.mem_singleton.1 hl']
    exact hl

theorem release (h : s.Within lo hi) (db : DB) (ids tokens : GoMap GoString Nat) (port : Int) :
    Store.Within ⟨db, s.heap, ids, tokens, s.alloc.release port⟩ lo hi :=
  ⟨h.cells, h.min, h.max, h.cursor⟩

theorem remove (h : s.Within lo hi) (id : GoString) (commits : Bool) :
    (s.remove id commits).store.Within lo hi := by
  rcases s.remove_cases id commits with ⟨e, he⟩ | ⟨l, hr⟩
  · rw [he]
    exact h
  · rw [hr.outcome]
    exact h.release _ _ _ _

theorem create (h : s.Within lo hi) (p : CreateParams) (env : CreateEnv) :
    (s.create p env).store.Within lo hi := by
  rcases s.create_cases h.cursor p env with ⟨l, _, he⟩ | ⟨a, hf⟩ | ⟨l, a, db, hc⟩
  · rw [he]
    exact h
  · rw [hf.store]
    refine ⟨h.cells, ?_, ?_, hf.cursor⟩
    · rw [hf.alloc]
      exact h.min
    · rw [hf.alloc]
      exact h.max
  · rw [hc.outcome]
    have hl := hc.range
    rw [h.min, h.max] at hl
    refine install ⟨h.cells, ?_, ?_, hc.cursor⟩ hl
    · rw [hc.alloc]
      exact h.min
    · rw [hc.alloc]
      exact h.max

theorem extend (h : s.Within lo hi) (id : GoString) (d : Duration) (o : Persist) :
    (s.extend id d o).store.Within lo hi := by
  rcases s.extend_cases id d o with ⟨e, he⟩ | ⟨l, r, db, hr⟩
  · rw [he]
    exact h
  · rw [hr.outcome]
    refine ⟨?_, h.min, h.max, h.cursor⟩
    intro l' hl'
    rcases List.mem_or_eq_of_mem_set hl' with hl' | rfl
    · exact h.cells l' hl'
    · exact h.cells l (List.mem_of_getElem? hr.cell)

theorem run (h : s.Within lo hi) (c : Call) : (c.run s).store.Within lo hi := by
  cases c with
  | create p env => exact h.create p env
  | extend id d o => exact h.extend id d o
  | revoke id commits => exact h.remove id commits
  | markExpired id commits => exact h.remove id commits
  | markExpiredIfBefore id cutoff commits =>
    simp only [Call.run, Outcome.map]
    rcases s.markExpiredIfBefore_cases id cutoff commits with ⟨w, e, he⟩ | ⟨l, _, _, he⟩
    · rw [he]
      exact h
    · rw [he]
      exact h.remove id commits

end Store.Within

theorem rehydrate_within (h : rehydrate lo hi now row = some l) : l.Within lo hi := by
  rw [rehydrate] at h
  split at h
  · cases h
  · split at h
    · cases h
    · split at h
      · cases h
      · rename_i hr
        cases h
        exact ⟨by omega, by omega⟩

theorem openFile_within (h : openFile f lo hi now commits = some (f', s)) : s.Within lo hi := by
  rw [openFile] at h
  split at h
  · cases h
    refine List.foldlRecOn (motive := fun acc : Store × List GoString => acc.1.Within lo hi)
      _ _ ?_ ?_
    · refine ⟨?_, rfl, rfl, PortAllocator.inRange_new lo hi⟩
      intro cell hcell
      cases hcell
    · intro acc hacc kv _
      rw [loadRow]
      split
      · exact hacc
      · rename_i l hl
        have hw := rehydrate_within hl
        have hi := hacc.install hw
        refine ⟨hi.cells, ?_, ?_, ?_⟩
        all_goals rw [PortAllocator.reserve]; split
        · exact hi.min
        · exact hi.min
        · exact hi.max
        · exact hi.max
        · exact hi.cursor
        · exact hi.cursor
  · cases h

namespace World

variable {w w' : World} {lo hi : Int} {a : Act} {c : Call}

/-- The leases that the daemon holds, has just read and has bound a listener for. -/
structure Within (w : World) (lo hi : Int) : Prop where
  store : w.store.Within lo hi
  found : ∀ sec l, w.mu = some sec → sec.found = some l → l.Within lo hi
  listeners : ∀ ln ∈ w.listeners, lo ≤ ln.port ∧ ln.port ≤ hi

theorem Within.calls (h : w.Within lo hi) (hs : w'.store = (c.run w.store).store)
    (hm : w'.mu = w.mu) (hl : w'.listeners = w.listeners) : w'.Within lo hi :=
  ⟨by rw [hs]; exact h.store.run c, by rw [hm]; exact h.found, by rw [hl]; exact h.listeners⟩

theorem Within.unlocked (h : w.Within lo hi) (hs : w'.store = w.store) (hm : w'.mu = none)
    (hl : w'.listeners = w.listeners) : w'.Within lo hi := by
  refine ⟨by rw [hs]; exact h.store, ?_, by rw [hl]; exact h.listeners⟩
  intro sec l hsec
  rw [hm] at hsec
  cases hsec

theorem Within.same (h : w.Within lo hi) (hs : w'.store = w.store) (hm : w'.mu = w.mu)
    (hl : w'.listeners = w.listeners) : w'.Within lo hi :=
  ⟨by rw [hs]; exact h.store, by rw [hm]; exact h.found, by rw [hl]; exact h.listeners⟩

theorem Within.lock (h : w.Within lo hi) (c : Nat) (id : GoString) (starts : Bool) :
    ({ w with mu := some ⟨c, id, starts, w.store.get id⟩ } : World).Within lo hi := by
  refine ⟨h.store, ?_, h.listeners⟩
  rintro _ l ⟨⟩ hl
  exact h.store.get hl

theorem Within.step (h : w.Within lo hi) (hs : w.step a = some w') : w'.Within lo hi := by
  cases step_cases hs with
  | create => exact h.calls rfl rfl rfl
  | extend => exact h.calls rfl rfl rfl
  | refuse => exact h.calls rfl rfl rfl
  | revoke => exact h.calls rfl rfl rfl
  | sweep => exact h.same rfl rfl rfl
  | mark => exact h.calls rfl rfl rfl
  | teardown => exact h.unlocked rfl rfl rfl
  | finish => exact h.same rfl rfl rfl
  | close => exact h.same rfl rfl rfl
  | auth => exact h.same rfl rfl rfl
  | drop => exact h.same rfl rfl rfl
  | check => exact h.same rfl rfl rfl
  | lockRegister => exact h.lock _ _ _
  | refuseConn => exact h.unlocked rfl rfl rfl
  | register => exact h.unlocked rfl rfl rfl
  | lockStart => exact h.lock _ _ _
  | gone => exact h.unlocked rfl rfl rfl
  | fail => exact h.unlocked rfl rfl rfl
  | start now portInUse c id found hd m l hmu _ hok =>
    obtain ⟨hf, _⟩ := Leases.startForward_spec hok
    refine ⟨h.store, fun _ _ he => (nomatch he), ?_⟩
    intro ln hln
    rcases List.mem_append.1 hln with hln | hln
    · exact h.listeners ln hln
    · rw [List.mem_singleton.1 hln]
      exact h.found _ l hmu hf
  | cancel => exact h.unlocked rfl rfl rfl
  | leave => exact h.unlocked rfl rfl rfl
  | hangup => exact h.same rfl rfl rfl

/-- Whatever the bytes of the database, a daemon that has opened it never binds a public listener
outside its port range and never serves a lease with a port outside it. -/
theorem listeners_in_range {minted : List GoString}
    (ho : openFile f lo hi now commits = some (f', s))
    (hrun : runFrom step (boot s minted) acts = some w) :
    (∀ ln ∈ w.listeners, lo ≤ ln.port ∧ ln.port ≤ hi) ∧
      ∀ id l, w.store.get id = some l → lo ≤ l.allocatedPort ∧ l.allocatedPort ≤ hi := by
  have hboot : (boot s minted).Within lo hi :=
    ⟨openFile_within ho, fun _ _ he => (nomatch he), fun _ he => (nomatch he)⟩
  have hw := runFrom_invariant (P := fun w => w.Within lo hi)
    (fun _ _ _ h hs => h.step hs) hboot hrun
  exact ⟨hw.listeners, fun id l hl => hw.store.get hl⟩

/-- A file that no daemon has written: a lease with blanks and an unknown key, a lease outside the
range, and bytes that are not JSON. -/
def foreignFile : File :=
  let row (port : String) := lit ("\x7b\"lease_id\": \"a\", \"TOKEN\": \"t\", " ++
    "\"allocated_port\":" ++ port ++ ", \"expires_at\": \"2030-01-02T03:04:05+02:00\", " ++
    "\"status\": \"active\", \"x\": [1]\x7d")
  ⟨some (((∅ : GoMap GoString GoString).insert (lit "k") (row "20001")).insert (lit "l")
    (row "80") |>.insert (lit "m") (lit "\x7b"))⟩

/-- A client of the one lease that is kept binds its port. -/
def foreignActs : List Act :=
  [.auth (lit "t") 0, .check 0 0, .lockRegister 0, .register 0, .lockStart 0,
    .start 0 fun _ => false]

theorem listeners_in_range_foreign : ∃ f s w,
    openFile foreignFile 20000 20001 0 true = some (f, s) ∧
    runFrom step (boot s []) foreignActs = some w ∧ w.listeners.length = 1 ∧
    ∀ ln ∈ w.listeners, 20000 ≤ ln.port ∧ ln.port ≤ 20001 := by
  have hrun : (((openFile foreignFile 20000 20001 0 true).bind fun r =>
      runFrom step (boot r.2 []) foreignActs).any fun w => w.listeners.length = 1) = true := by
    decide +kernel
  obtain ⟨w, hw, hlen⟩ := (Option.any_eq_true _ _).1 hrun
  obtain ⟨r, ho, hrun⟩ := Option.bind_eq_some_iff.1 hw
  exact ⟨r.1, r.2, w, ho, hrun, of_decide_eq_true hlen, (listeners_in_range ho hrun).1⟩

end World

end HyruleProxy
