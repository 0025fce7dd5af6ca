import HyruleProxy.Recovery

namespace HyruleProxy
set_option autoImplicit true

/-- The call returns an error. -/
def Reply.failed : Reply → Bool
  | .lease (.error _) => true
  | .done (.error _) => true
  | .expiry r => r.err.isSome
  | _ => false

variable {min max : Int} {now : Time}

theorem PortAllocator.InRange.reserve {a : PortAllocator} (h : a.InRange) (port : Int) :
    (a.reserve port).InRange := by
  rw [PortAllocator.reserve]
  split
  · exact h
  · exact h

theorem loadRow_inRange {acc : Store × List GoString} (h : acc.1.alloc.InRange)
    (kv : GoString × Row) : (loadRow min max now acc kv).1.alloc.InRange := by
  rw [loadRow]
  split
  · exact h
  · exact h.reserve _

theorem openStore_inRange (h : openStore db min max now commits = some s) : s.alloc.InRange := by
  have hload : ∀ (kvs : List (GoString × Row)) (acc : Store × List GoString),
      acc.1.alloc.InRange → (kvs.foldl (loadRow min max now) acc).1.alloc.InRange := by
    intro kvs
    induction kvs with
    | nil =>
      intro acc ha
      exact ha
    | cons kv kvs ih =>
      intro acc ha
      exact ih _ (loadRow_inRange ha kv)
  rw [openStore] at h
  split at h
  · cases h
    exact hload _ _ (PortAllocator.inRange_new min max)
  · cases h

namespace Store

/-- The store with the cursor of its allocator elsewhere. -/
def moveCursor (s : Store) (next : Int) : Store := { s with alloc := { s.alloc with next := next } }

theorem remove_inRange {s : Store} (h : s.alloc.InRange) (id : GoString) (commits : Bool) :
    (s.remove id commits).store.alloc.InRange := by
  rcases s.remove_cases id commits with ⟨e, he⟩ | ⟨l, hr⟩
  · rw [he]
    exact h
  · rw [hr.outcome]
    exact h

theorem remove_failed {s : Store} {id : GoString} (h : (s.remove id commits).result = .error e) :
    (s.remove id commits).store = s := by
  rcases s.remove_cases id commits with ⟨e, he⟩ | ⟨l, hr⟩
  · rw [he]
  · rw [hr.outcome] at h
    cases h

end Store

namespace Call

variable {s : Store}

theorem run_inRange (h : s.alloc.InRange) (c : Call) : (c.run s).store.alloc.InRange := by
  cases c with
  | create p env =>
    rcases s.create_cases h p env with ⟨l, _, he⟩ | ⟨a, hf⟩ | ⟨l, a, db, hc⟩
    · simp only [run, Outcome.map, he]
      exact h
    · simp only [run, Outcome.map, hf.store]
      exact hf.cursor
    · simp only [run, Outcome.map, hc.outcome]
      exact hc.cursor
  | extend id d o =>
    rcases s.extend_cases id d o with ⟨e, he⟩ | ⟨l, r, db, hr⟩
    · simp only [run, Outcome.map, he]
      exact h
    · simp only [run, Outcome.map, hr.outcome]
      exact h
  | revoke id commits => exact Store.remove_inRange h id commits
  | markExpired id commits => exact Store.remove_inRange h id commits
  | markExpiredIfBefore id cutoff commits =>
    rcases s.markExpiredIfBefore_cases id cutoff commits with ⟨w, e, he⟩ | ⟨l, _, _, he⟩
    · simp only [run, Outcome.map, he]
      exact h
    · simp only [run, Outcome.map, he]
      exact Store.remove_inRange h id commits

theorem run_failed (h : s.alloc.InRange) (c : Call) (hf : (c.run s).result.failed = true) :
    ∃ next, (c.run s).store = s.moveCursor next := by
  have hsame (he : (c.run s).store = s) : ∃ next, (c.run s).store = s.moveCursor next :=
    ⟨s.alloc.next, he⟩
  cases c with
  | create p env =>
    rcases s.create_cases h p env with ⟨l, _, he⟩ | ⟨a, hc⟩ | ⟨l, a, db, hc⟩
    · simp only [run, Outcome.map, he] at hf
      cases hf
    · refine ⟨a.next, ?_⟩
      have hst : ((create p env).run s).store = { s with alloc := a } := hc.store
      rw [hst, Store.moveCursor, ← hc.alloc]
    · simp only [run, Outcome.map, hc.outcome] at hf
      cases hf
  | extend id d o =>
    rcases s.extend_cases id d o with ⟨e, he⟩ | ⟨l, r, db, hr⟩
    · apply hsame
      simp only [run, Outcome.map, he]
    · simp only [run, Outcome.map, hr.outcome] at hf
      cases hf
  | revoke id commits =>
    apply hsame
    cases hr : (s.remove id commits).result with
    | error e => exact Store.remove_failed hr
    | ok =>
      simp only [run, Outcome.map, Store.revoke, hr] at hf
      cases hf
  | markExpired id commits =>
    apply hsame
    cases hr : (s.remove id commits).result with
    | error e => exact Store.remove_failed hr
    | ok =>
      simp only [run, Outcome.map, Store.markExpired, hr] at hf
      cases hf
  | markExpiredIfBefore id cutoff commits =>
    apply hsame
    rcases s.markExpiredIfBefore_cases id cutoff commits with ⟨w, e, he⟩ | ⟨l, _, _, he⟩
    · simp only [run, Outcome.map, he]
    · simp only [run, Outcome.map, he] at hf
      cases hf

end Call

namespace Machine

theorem step_inRange {m : Machine} (h : ∀ s, m = .up s → s.alloc.InRange) (e : Event) :
    ∀ s, (m.step e).1 = .up s → s.alloc.InRange := by
  intro s hs
  cases m with
  | up s₀ =>
    cases e with
    | call c =>
      cases hs
      exact Call.run_inRange (h s₀ rfl) c
    | crash => cases hs
    | stop => cases hs
    | boot =>
      cases hs
      exact h s rfl
  | down db =>
    cases e with
    | call => cases hs
    | crash => cases hs
    | stop => cases hs
    | boot min max now commits =>
      cases ho : openStore db min max now commits with
      | none =>
        simp only [Machine.step, ho] at hs
        cases hs
      | some s₁ =>
        simp only [Machine.step, ho] at hs
        cases hs
        exact openStore_inRange ho

theorem run_inRange {m : Machine} (h : ∀ s, m = .up s → s.alloc.InRange) (es : List Event) :
    ∀ s, (m.run es).1 = .up s → s.alloc.InRange := by
  induction es generalizing m with
  | nil => exact h
  | cons e es ih => exact ih (step_inRange h e)

/-- A call that returns an error, in any state that can be reached, leaves the indexes, the
leases, the used ports and the file as they were; the cursor stays in the range. -/
theorem failed_call (es : List Event) (c : Call) (hup : ((down DB.empty).run es).1 = .up s)
    (hf : (c.run s).result.failed = true) :
    ∃ next, (c.run s).store = s.moveCursor next ∧
      (s.alloc.min ≤ s.alloc.max → s.alloc.min ≤ next ∧ next ≤ s.alloc.max) := by
  have hr := run_inRange (m := down DB.empty) (fun _ he => nomatch he) es s hup
  obtain ⟨next, he⟩ := Call.run_failed hr c hf
  refine ⟨next, he, ?_⟩
  have hc := Call.run_inRange hr c
  rw [he] at hc
  exact hc

/-- A create that finds no port. -/
theorem failed_call_exhausted :
    ∃ s next, ((down DB.empty).run [.boot 20000 20000 0 true,
        .call (Store.sampleCreate (lit "a") 0 5)]).1 = .up s ∧
      ((Store.sampleCreate (lit "b") 1 6).run s).store = s.moveCursor next ∧ next = 20000 := by
  obtain ⟨next, he, hr⟩ := failed_call [.boot 20000 20000 0 true,
    .call (Store.sampleCreate (lit "a") 0 5)] (Store.sampleCreate (lit "b") 1 6) rfl rfl
  have hb := hr (by decide)
  exact ⟨_, next, rfl, he, Int.le_antisymm hb.2 hb.1⟩

end Machine

end HyruleProxy
