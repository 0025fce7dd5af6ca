import HyruleProxy.Coordinator
import HyruleProxy.LastWriter

namespace HyruleProxy
set_option autoImplicit true

/-- The counter of one direction; `inward` is the one from the visitor to the client. -/
def Session.bytes (st : Session) (inward : Bool) : Int := if inward then st.bytesIn else st.bytesOut

namespace Manager

def counter (m : Manager) (inward : Bool) (p : Nat) : Int :=
  ((m.sessions[p]?).map fun st => st.bytes inward).getD 0

/-- The model of `Stats`: the state is found under the lock, and its counters are loaded one by
one after the lock is released, each at a moment of its own. -/
def stats (locked visitors bytesIn bytesOut : Manager) (id : GoString) : ConnStats :=
  match locked.entry id with
  | none => ⟨false, 0, 0, 0⟩
  | some (p, st) =>
    { connected := st.forward.isSome
      visitors := ((visitors.sessions[p]?).map Session.visitors).getD 0
      bytesIn := bytesIn.counter true p
      bytesOut := bytesOut.counter false p }

/-- The bytes of a copy that ends in this step, if it is one of a visitor of the session `p`. -/
def copied (m : Manager) (op : Op) (inward : Bool) (p : Nat) : Nat :=
  match op with
  | .visit i (.copied inward' n) =>
    if inward' = inward ∧ (m.visitors[i]?).map Visitor.session = some p then n else 0
  | _ => 0

end Manager

/-- The manager with a record of a lease: the sessions registered for its id since it was created,
and for every session the bytes that the copies of its visitors have moved in each direction. -/
structure Record where
  manager : Manager
  own : List Nat
  moved : Bool → Nat → Nat

namespace Record

def empty : Record := ⟨Manager.empty, [], fun _ _ => 0⟩

def step (cap : Int) (id : GoString) (r : Record) (op : Op) : Option Record :=
  (r.manager.step cap op).map fun m =>
    { manager := m
      own := if op.registers.map Prod.fst = some id then r.own ++ [r.manager.sessions.length]
        else r.own
      moved := fun inward p => r.moved inward p + r.manager.copied op inward p }

/-- A lease is created under the id: what an earlier lease of the id had registered is not its
own. -/
def created (r : Record) : Record := { r with own := [] }

/-- The records along a run, with the first one. -/
def exec (cap : Int) (id : GoString) : Record → List Op → Option (List Record)
  | r, [] => some [r]
  | r, op :: ops => (r.step cap id op).bind fun r' => (r'.exec cap id ops).map fun rs => r :: rs

/-- The records of the life of a lease: it is created after the operations `before`, and stays in
the store during the operations `during`. -/
def life (cap : Int) (id : GoString) (before during : List Op) : Option (List Record) :=
  ((empty.exec cap id before).bind List.getLast?).bind fun r => r.created.exec cap id during

/-- No copy of a visitor of the lease is under way. -/
def Quiet (r : Record) : Prop :=
  ∀ v ∈ r.manager.visitors, v.session ∈ r.own → ∀ inDone outDone,
    v.stage = .copying inDone outDone → inDone = true ∧ outDone = true

/-- The bytes that the visitors of the lease have moved. -/
def total (r : Record) (inward : Bool) : Nat := (r.own.map (r.moved inward)).sum

end Record

/-- The moments at which a call of `GetLease` finds the state and loads its counters. -/
structure Reading where
  locked : Nat
  visitors : Nat
  bytesIn : Nat
  bytesOut : Nat
  visitors_after : locked ≤ visitors
  bytesIn_after : visitors ≤ bytesIn
  bytesOut_after : bytesIn ≤ bytesOut

/-- A call that takes no time. -/
def Reading.at (i : Nat) : Reading := ⟨i, i, i, i, le_rfl, le_rfl, le_rfl⟩

/-- The manager at a moment of a run. -/
def managerAt (rs : List Record) (i : Nat) : Manager :=
  ((rs[i]?).map Record.manager).getD Manager.empty

/-- The answer of `GetLease` for a lease in the store. -/
def getLease (cfg : TunnelConfig) (l : Lease) (rs : List Record) (q : Reading) : LeaseResponse :=
  toResponse cfg (Manager.stats (managerAt rs q.locked) (managerAt rs q.visitors)
    (managerAt rs q.bytesIn) (managerAt rs q.bytesOut)) l false

/-- The bytes in the answers never decrease from one call to the next, and when all copies have
ended they are the bytes that the visitors of the lease have moved. -/
structure CountsTraffic (cfg : TunnelConfig) (id : GoString) (rs : List Record) : Prop where
  forward : ∀ (l l' : Lease) (q q' : Reading), l.leaseID = id → l'.leaseID = id →
    q.bytesOut ≤ q'.locked → q'.bytesOut < rs.length →
    (getLease cfg l rs q).bytesIn ≤ (getLease cfg l' rs q').bytesIn ∧
      (getLease cfg l rs q).bytesOut ≤ (getLease cfg l' rs q').bytesOut
  total : ∀ (l : Lease) (i : Nat) (r : Record), l.leaseID = id → rs[i]? = some r → r.Quiet →
    (getLease cfg l rs (.at i)).bytesIn = r.total true ∧
      (getLease cfg l rs (.at i)).bytesOut = r.total false

/-- The bytes that the visitors of the connection registered in `r` have moved by the time of
`r'`. -/
def Record.movedBy (r r' : Record) (id : GoString) (inward : Bool) : Nat :=
  ((r.manager.leases[id]?).map (r'.moved inward)).getD 0

/-- At no moment have the visitors of a connection that was registered earlier moved more bytes
than those of the present one, and when no copy is under way only the visitors of the present one
have moved any, which then was registered since the creation. -/
structure SoleConnection (id : GoString) (rs : List Record) : Prop where
  earlier : ∀ (i j : Nat) (r r' : Record), i ≤ j → rs[i]? = some r → rs[j]? = some r' →
    ∀ inward, r.movedBy r' id inward ≤ r'.movedBy r' id inward
  quiet : ∀ (i : Nat) (r : Record) (p : Nat), rs[i]? = some r → r.Quiet →
    p ∈ r.own ∨ r.manager.leases[id]? = some p → ∀ inward, r.moved inward p ≠ 0 →
    p ∈ r.own ∧ r.manager.leases[id]? = some p

namespace Manager

variable {m m' : Manager} {cap : Int} {op : Op} {id : GoString}

theorem step_entry (h : m.step cap op = some m') (id : GoString) :
    op.registers.map Prod.fst = some id ∧ m'.leases[id]? = some m.sessions.length ∨
      op.registers.map Prod.fst ≠ some id ∧
        (m'.leases[id]? = m.leases[id]? ∨ m'.leases[id]? = none) := by
  cases op with
  | registerConn found now c id' =>
    simp only [step, registerConn] at h
    cases hl : liveAt now found with
    | none =>
      simp only [hl] at h
      cases h
      exact .inr ⟨by simp [Op.registers, hl], .inl rfl⟩
    | some l =>
      simp only [hl] at h
      cases h
      by_cases hid : id' = id
      · subst hid
        refine .inl ⟨by simp [Op.registers, hl], ?_⟩
        rw [GoMap.get_insert, if_pos rfl]
      · refine .inr ⟨by simp [Op.registers, hl, hid], .inl ?_⟩
        rw [GoMap.get_insert, if_neg hid]
  | startForward found now c id' inUse =>
    refine .inr ⟨by simp [Op.registers], .inl ?_⟩
    simp only [step] at h
    split at h
    · cases h
      rfl
    · rename_i r hr
      cases h
      obtain ⟨p, st, _, hm⟩ := startForward_eq_ok hr
      rw [hm]
      rfl
  | teardown id' =>
    refine .inr ⟨by simp [Op.registers], ?_⟩
    simp only [step, teardown] at h
    split at h
    · cases h
      exact .inl rfl
    · cases h
      by_cases hid : id' = id
      · exact .inr (by rw [GoMap.get_erase, if_pos hid])
      · exact .inl (by rw [GoMap.get_erase, if_neg hid])
  | cancelForward id' c =>
    refine .inr ⟨by simp [Op.registers], .inl ?_⟩
    simp only [step, cancelForward] at h
    split at h
    · cases h
      rfl
    · split at h
      · cases h
        rfl
      · split at h
        · cases h
          rfl
        · cases h
          rfl
  | onConnClosed id' c =>
    refine .inr ⟨by simp [Op.registers], ?_⟩
    simp only [step, onConnClosed] at h
    split at h
    · cases h
      exact .inl rfl
    · split at h
      · cases h
        by_cases hid : id' = id
        · exact .inr (by rw [GoMap.get_erase, if_pos hid])
        · exact .inl (by rw [GoMap.get_erase, if_neg hid])
      · cases h
        exact .inl rfl
  | accept k =>
    obtain ⟨f, _, _, rfl⟩ := accept_cases h
    exact .inr ⟨by simp [Op.registers], .inl rfl⟩
  | visit i move =>
    obtain ⟨v, st, f, _, hst, _, hv⟩ := handleVisitor_cases h
    exact .inr ⟨by simp [Op.registers], .inl (by rw [(hv.frame hst).1])⟩
  | close k i =>
    obtain ⟨f, _, hc⟩ := close_cases h
    exact .inr ⟨by simp [Op.registers], .inl (by rw [hc.frame.1])⟩

/-- The counters of a session after a step: as before, or zero in a new session. -/
def KeepsBytes (m m' : Manager) : Prop :=
  ∀ p st', m'.sessions[p]? = some st' → m.sessions.length = p ∧ (∀ inward, st'.bytes inward = 0) ∨
    ∃ st, m.sessions[p]? = some st ∧ ∀ inward, st'.bytes inward = st.bytes inward

theorem KeepsBytes.of_eq (h : m'.sessions = m.sessions) : KeepsBytes m m' := by
  intro p st' hp
  rw [h] at hp
  exact .inr ⟨st', hp, fun _ => rfl⟩

theorem KeepsBytes.set {st st' : Session} (hs : m.sessions[q]? = some st)
    (h : m'.sessions = m.sessions.set q st') (hb : ∀ inward, st'.bytes inward = st.bytes inward) :
    KeepsBytes m m' := by
  intro p st₁ hp
  rw [h, getElem?_set_some hs] at hp
  split at hp
  · rename_i hq
    subst hq
    cases hp
    exact .inr ⟨st, hs, hb⟩
  · exact .inr ⟨st₁, hp, fun _ => rfl⟩

theorem bytes_withForward (st : Session) (f : Option Nat) (inward : Bool) :
    ({ st with forward := f } : Session).bytes inward = st.bytes inward := rfl

theorem Visits.bytes {v : Visitor} {st : Session} {f : Forward}
    (h : Visits cap m i v st f move m') (hv : m.visitors[i]? = some v)
    (hst : m.sessions[v.session]? = some st) (p : Nat) (st' : Session)
    (hp : m'.sessions[p]? = some st') : ∃ st₁, m.sessions[p]? = some st₁ ∧
      ∀ inward, st'.bytes inward = st₁.bytes inward + m.copied (.visit i move) inward p := by
  have hsame : ∀ {move : Move}, (∀ inward, m.copied (.visit i move) inward p = 0) →
      m'.sessions = m.sessions → ∃ st₁, m.sessions[p]? = some st₁ ∧
        ∀ inward, st'.bytes inward = st₁.bytes inward + m.copied (.visit i move) inward p := by
    intro move hc hs
    rw [hs] at hp
    refine ⟨st', hp, fun inward => ?_⟩
    rw [hc inward]
    exact (Int.add_zero _).symm
  -- a move that writes the session of its visitor, and no other
  have hset : ∀ {move : Move} {st₁ : Session}, m'.sessions = m.sessions.set v.session st₁ →
      (∀ inward, st₁.bytes inward = st.bytes inward + m.copied (.visit i move) inward v.session) →
      (∀ inward, p ≠ v.session → m.copied (.visit i move) inward p = 0) →
      ∃ st₂, m.sessions[p]? = some st₂ ∧
        ∀ inward, st'.bytes inward = st₂.bytes inward + m.copied (.visit i move) inward p := by
    intro move st₁ hs hb hc
    rw [hs, getElem?_set_some hst] at hp
    split at hp
    · rename_i hq
      subst hq
      cases hp
      exact ⟨st, hst, hb⟩
    · rename_i hq
      refine ⟨st', hp, fun inward => ?_⟩
      rw [hc inward (Ne.symm hq)]
      exact (Int.add_zero _).symm
  have hcopied : ∀ inward inward' n q, m.copied (.visit i (.copied inward' n)) inward q =
      if inward' = inward ∧ v.session = q then n else 0 := by
    intro inward inward' n q
    simp only [copied, hv, Option.map_some, Option.some.injEq]
  cases h with
  | reserve => exact hset rfl (fun _ => (Int.add_zero _).symm) fun _ _ => rfl
  | release => exact hset rfl (fun _ => (Int.add_zero _).symm) fun _ _ => rfl
  | copiedIn outDone n =>
    refine hset rfl ?_ ?_
    · intro inward
      rw [hcopied]
      cases inward with
      | true => simp [Session.bytes]
      | false => simp [Session.bytes]
    · intro inward hne
      rw [hcopied, if_neg fun hq => hne hq.2.symm]
  | copiedOut inDone n =>
    refine hset rfl ?_ ?_
    · intro inward
      rw [hcopied]
      cases inward with
      | true => simp [Session.bytes]
      | false => simp [Session.bytes]
    · intro inward hne
      rw [hcopied, if_neg fun hq => hne hq.2.symm]
  | _ => exact hsame (fun _ => rfl) rfl

theorem Step.keepsBytes (h : m.Step cap op m') (hv : ∀ i move, op ≠ .visit i move) :
    KeepsBytes m m' := by
  cases h with
  | entries => exact .of_eq rfl
  | register =>
    intro p st' hp
    simp only [getElem?_push] at hp
    split at hp
    · rename_i hq
      cases hp
      exact .inl ⟨hq.symm, fun inward => by cases inward <;> rfl⟩
    · exact .inr ⟨st', hp, fun _ => rfl⟩
  | cancel _ p st hs => exact .set hs rfl (bytes_withForward st none)
  | start _ p st hs => exact .set hs rfl (bytes_withForward st _)
  | accept => exact .of_eq rfl
  | visit i move => exact absurd rfl (hv i move)
  | close k j f m' hf hc => exact .of_eq hc.frame.2

theorem step_bytes (h : m.step cap op = some m') (p : Nat) (st' : Session)
    (hp : m'.sessions[p]? = some st') :
    m.sessions.length = p ∧ (∀ inward, st'.bytes inward = 0) ∨ ∃ st, m.sessions[p]? = some st ∧
      ∀ inward, st'.bytes inward = st.bytes inward + m.copied op inward p := by
  have hstep := step_cases h
  have hplain : (∀ i move, op ≠ .visit i move) → (∀ inward, m.copied op inward p = 0) →
      m.sessions.length = p ∧ (∀ inward, st'.bytes inward = 0) ∨
        ∃ st, m.sessions[p]? = some st ∧
          ∀ inward, st'.bytes inward = st.bytes inward + m.copied op inward p := by
    intro hv hc
    rcases hstep.keepsBytes hv p st' hp with hnew | ⟨st, hst, hb⟩
    · exact .inl hnew
    · refine .inr ⟨st, hst, fun inward => ?_⟩
      rw [hc inward, hb inward]
      exact (Int.add_zero _).symm
  cases op with
  | visit i move =>
    obtain ⟨v, st, f, hv, hst, _, hvis⟩ := handleVisitor_cases h
    exact .inr (hvis.bytes hv hst p st' hp)
  | _ => exact hplain (by simp) fun _ => rfl

theorem step_length (h : m.step cap op = some m') : m.sessions.length ≤ m'.sessions.length := by
  cases step_cases h with
  | entries => exact le_rfl
  | register => simp
  | cancel _ p st hs => simp [setSession]
  | start _ p st hs => simp [setSession]
  | accept => exact le_rfl
  | visit i move v st f m' hv hst hf hvis =>
    have hlen := congrArg List.length (hvis.frame hst).2
    rw [List.length_map, List.length_map] at hlen
    exact hlen.ge
  | close k j f m' hf hc => rw [hc.frame.2]

theorem copied_lt (h : m.step cap op = some m') (hc : m.copied op inward p ≠ 0) :
    p < m.sessions.length := by
  cases op with
  | visit i move =>
    obtain ⟨v, st, f, hv, hst, _, _⟩ := handleVisitor_cases h
    cases move with
    | copied inward' n =>
      simp only [copied, hv, Option.map_some, Option.some.injEq, ne_eq, ite_eq_right_iff,
        Classical.not_imp] at hc
      rw [← hc.1.2]
      exact (List.getElem?_eq_some_iff.1 hst).1
    | _ => exact absurd rfl hc
  | _ => exact absurd rfl hc

end Manager

namespace Record

variable {r r' : Record} {cap : Int} {op : Op} {id : GoString} {ops : List Op} {rs : List Record}
  {i j p : Nat} {inward : Bool}

/-- The record fits the manager. -/
structure Kept (id : GoString) (r : Record) : Prop where
  sound : r.manager.Sound
  counted : ∀ (p : Nat) (st : Session), r.manager.sessions[p]? = some st →
    ∀ inward, st.bytes inward = r.moved inward p
  unborn : ∀ p, r.manager.sessions.length ≤ p → ∀ inward, r.moved inward p = 0
  own_lt : ∀ p ∈ r.own, p < r.manager.sessions.length
  nodup : r.own.Nodup
  entry : r.own ≠ [] → ∀ p, r.manager.leases[id]? = some p → p ∈ r.own

theorem kept_empty (id : GoString) : empty.Kept id := by
  refine ⟨(@Manager.Run.nil 0).sound, ?_, fun _ _ _ => rfl, ?_, List.nodup_nil, ?_⟩
  · intro p st hp
    cases hp
  · intro p hp
    cases hp
  · intro h
    exact absurd rfl h

theorem Kept.created (h : r.Kept id) : r.created.Kept id := by
  refine ⟨h.sound, h.counted, h.unborn, ?_, List.nodup_nil, ?_⟩
  · intro p hp
    cases hp
  · intro hne
    exact absurd rfl hne

/-- What a step does to the record. -/
structure Steps (cap : Int) (id : GoString) (r : Record) (op : Op) (r' : Record) : Prop where
  manager : r.manager.step cap op = some r'.manager
  own : r'.own = if op.registers.map Prod.fst = some id then r.own ++ [r.manager.sessions.length]
    else r.own
  moved : ∀ inward p, r'.moved inward p = r.moved inward p + r.manager.copied op inward p

theorem step_steps (h : r.step cap id op = some r') : Steps cap id r op r' := by
  obtain ⟨m', hm, rfl⟩ := Option.map_eq_some_iff.1 h
  exact ⟨hm, rfl, fun _ _ => rfl⟩

namespace Kept

theorem copied_unborn (hs : Steps cap id r op r') (hp : r.manager.sessions.length ≤ p) :
    r.manager.copied op inward p = 0 := by
  by_contra hne
  exact absurd (Manager.copied_lt hs.manager hne) (not_lt.2 hp)

theorem counted_step (h : r.Kept id) (hs : Steps cap id r op r') (st : Session)
    (hp : r'.manager.sessions[p]? = some st) : st.bytes inward = r'.moved inward p := by
  rw [hs.moved]
  rcases Manager.step_bytes hs.manager p st hp with ⟨hlen, hzero⟩ | ⟨st₀, hst, hb⟩
  · rw [hzero, h.unborn p hlen.le, copied_unborn hs hlen.le]
    rfl
  · rw [hb, h.counted p st₀ hst, Nat.cast_add]

theorem unborn_step (h : r.Kept id) (hs : Steps cap id r op r')
    (hp : r'.manager.sessions.length ≤ p) : r'.moved inward p = 0 := by
  have hle := (Manager.step_length hs.manager).trans hp
  rw [hs.moved, h.unborn p hle, copied_unborn hs hle]

theorem own_lt_step (h : r.Kept id) (hs : Steps cap id r op r') (hp : p ∈ r'.own) :
    p < r'.manager.sessions.length := by
  have hlen := Manager.step_length hs.manager
  have hsound := (Manager.step_view h.sound hs.manager).1
  rw [hs.own] at hp
  rcases Manager.step_entry hs.manager id with ⟨hreg, he⟩ | ⟨hreg, _⟩
  · rw [if_pos hreg, List.mem_append, List.mem_singleton] at hp
    rcases hp with hp | rfl
    · exact lt_of_lt_of_le (h.own_lt p hp) hlen
    · exact hsound.valid id _ he
  · rw [if_neg hreg] at hp
    exact lt_of_lt_of_le (h.own_lt p hp) hlen

theorem nodup_step (h : r.Kept id) (hs : Steps cap id r op r') : r'.own.Nodup := by
  rw [hs.own]
  split
  · refine List.nodup_append.2 ⟨h.nodup, List.nodup_singleton _, ?_⟩
    intro p hp q hq he
    rw [List.mem_singleton.1 hq] at he
    exact absurd (h.own_lt p hp) (by rw [he]; exact lt_irrefl _)
  · exact h.nodup

theorem entry_step (h : r.Kept id) (hs : Steps cap id r op r') (hne : r'.own ≠ [])
    (hp : r'.manager.leases[id]? = some p) : p ∈ r'.own := by
  rw [hs.own] at hne ⊢
  rcases Manager.step_entry hs.manager id with ⟨hreg, he⟩ | ⟨hreg, he⟩
  · rw [he] at hp
    cases hp
    rw [if_pos hreg]
    exact List.mem_append_right _ (List.mem_singleton_self _)
  · rw [if_neg hreg] at hne ⊢
    rcases he with he | he
    · rw [he] at hp
      exact h.entry hne p hp
    · rw [he] at hp
      cases hp

theorem step (h : r.Kept id) (hs : r.step cap id op = some r') : r'.Kept id := by
  have hs := step_steps hs
  refine ⟨(Manager.step_view h.sound hs.manager).1, ?_, ?_, ?_, h.nodup_step hs, ?_⟩
  · intro p st hp inward
    exact h.counted_step hs st hp
  · intro p hp inward
    exact h.unborn_step hs hp
  · intro p hp
    exact h.own_lt_step hs hp
  · intro hne p hp
    exact h.entry_step hs hne hp

end Kept

theorem exec_cons (h : r.exec cap id (op :: ops) = some rs) :
    ∃ r' rs', r.step cap id op = some r' ∧ r'.exec cap id ops = some rs' ∧ rs = r :: rs' := by
  obtain ⟨r', hs, h⟩ := Option.bind_eq_some_iff.1 h
  obtain ⟨rs', hr, rfl⟩ := Option.map_eq_some_iff.1 h
  exact ⟨r', rs', hs, hr, rfl⟩

theorem Kept.exec (h : r.Kept id) (he : r.exec cap id ops = some rs) : ∀ q ∈ rs, q.Kept id := by
  induction ops generalizing r rs with
  | nil =>
    cases he
    exact List.forall_mem_singleton.2 h
  | cons op ops ih =>
    obtain ⟨r', rs', hs, hr, rfl⟩ := exec_cons he
    exact List.forall_mem_cons.2 ⟨h, ih (h.step hs) hr⟩

theorem exec_moved (he : r.exec cap id ops = some rs) :
    ∀ q ∈ rs, ∀ inward p, r.moved inward p ≤ q.moved inward p := by
  induction ops generalizing r rs with
  | nil =>
    cases he
    exact List.forall_mem_singleton.2 fun _ _ => le_rfl
  | cons op ops ih =>
    obtain ⟨r', rs', hs, hr, rfl⟩ := exec_cons he
    refine List.forall_mem_cons.2 ⟨fun _ _ => le_rfl, ?_⟩
    intro q hq inward p
    have hstep : r.moved inward p ≤ r'.moved inward p := by
      rw [(step_steps hs).moved]
      exact Nat.le_add_right _ _
    exact hstep.trans (ih hr q hq inward p)

theorem exec_moved_le (he : r.exec cap id ops = some rs) {q q' : Record} (hij : i ≤ j)
    (hi : rs[i]? = some q) (hj : rs[j]? = some q') (inward : Bool) (p : Nat) :
    q.moved inward p ≤ q'.moved inward p := by
  induction ops generalizing r rs i j with
  | nil =>
    cases he
    have hq := List.mem_singleton.1 (List.mem_of_getElem? hi)
    have hq' := List.mem_singleton.1 (List.mem_of_getElem? hj)
    rw [hq, hq']
  | cons op ops ih =>
    have hall := exec_moved he
    obtain ⟨r', rs', _, hr, rfl⟩ := exec_cons he
    cases i with
    | zero =>
      cases hi
      exact hall q' (List.mem_of_getElem? hj) inward p
    | succ i =>
      cases j with
      | zero => exact absurd hij (Nat.not_succ_le_zero i)
      | succ j => exact ih hr (Nat.le_of_succ_le_succ hij) hi hj

theorem life_spec (h : life cap id before during = some rs) :
    (∀ q ∈ rs, q.Kept id) ∧ ∀ (i j : Nat) (q q' : Record), i ≤ j → rs[i]? = some q →
      rs[j]? = some q' → ∀ inward p, q.moved inward p ≤ q'.moved inward p := by
  obtain ⟨r, hr, he⟩ := Option.bind_eq_some_iff.1 h
  obtain ⟨qs, hqs, hlast⟩ := Option.bind_eq_some_iff.1 hr
  have hk := (kept_empty id).exec hqs r (List.mem_of_getLast? hlast)
  refine ⟨hk.created.exec he, ?_⟩
  intro i j q q' hij hi hj
  exact exec_moved_le he hij hi hj

theorem Kept.counter_eq (h : r.Kept id) (inward : Bool) (p : Nat) :
    r.manager.counter inward p = r.moved inward p := by
  rw [Manager.counter]
  cases hp : r.manager.sessions[p]? with
  | none =>
    rw [h.unborn p (List.getElem?_eq_none_iff.1 hp)]
    rfl
  | some st => exact h.counted p st hp inward

end Record

section Answers

variable {id : GoString} {rs : List Record} {l : Lease} {r r₁ r₂ : Record}

theorem stats_moved (hk : r.Kept id) (hk₁ : r₁.Kept id) (hk₂ : r₂.Kept id) (v : Manager) :
    (Manager.stats r.manager v r₁.manager r₂.manager id).bytesIn = r.movedBy r₁ id true ∧
      (Manager.stats r.manager v r₁.manager r₂.manager id).bytesOut = r.movedBy r₂ id false := by
  rw [Manager.stats, Record.movedBy, Record.movedBy, Manager.entry]
  cases hp : r.manager.leases[id]? with
  | none => exact ⟨rfl, rfl⟩
  | some p =>
    have hlt := hk.sound.valid id p hp
    simp only [Option.bind_some, List.getElem?_eq_getElem hlt, Option.map_some, Option.getD_some]
    exact ⟨hk₁.counter_eq true p, hk₂.counter_eq false p⟩

theorem managerAt_eq (h : rs[i]? = some r) : managerAt rs i = r.manager := by
  rw [managerAt, h]
  rfl

theorem getLease_moved (cfg : TunnelConfig) (q : Reading) (hk : ∀ q ∈ rs, q.Kept id)
    (hl : l.leaseID = id)
    (h : rs[q.locked]? = some r) (h₁ : rs[q.bytesIn]? = some r₁) (h₂ : rs[q.bytesOut]? = some r₂) :
    (getLease cfg l rs q).bytesIn = r.movedBy r₁ id true ∧
      (getLease cfg l rs q).bytesOut = r.movedBy r₂ id false := by
  subst hl
  simp only [getLease, toResponse, managerAt_eq h, managerAt_eq h₁, managerAt_eq h₂]
  exact stats_moved (hk r (List.mem_of_getElem? h)) (hk r₁ (List.mem_of_getElem? h₁))
    (hk r₂ (List.mem_of_getElem? h₂)) _

theorem sum_eq_term {ps : List Nat} (f : Nat → Nat) (hn : ps.Nodup) (hp : p ∈ ps) :
    f p = (ps.map f).sum ↔ ∀ q ∈ ps, f q ≠ 0 → q = p := by
  have hsum := List.sum_map_erase f hp
  have hzero : f p = (ps.map f).sum ↔ ((ps.erase p).map f).sum = 0 := by omega
  rw [hzero, List.sum_eq_zero_iff, List.forall_mem_map]
  constructor
  · intro h q hq hf
    by_contra hne
    exact hf (h q (hn.mem_erase_iff.2 ⟨hne, hq⟩))
  · intro h q hq
    obtain ⟨hne, hq⟩ := hn.mem_erase_iff.1 hq
    by_contra hf
    exact hne (h q hq hf)

/-- The present connection accounts for all bytes of the lease exactly when it is the only one
with bytes, and one of the lease. -/
theorem Record.Kept.movedBy_eq_total (hk : r.Kept id) (inward : Bool) :
    r.movedBy r id inward = r.total inward ↔
      ∀ p, p ∈ r.own ∨ r.manager.leases[id]? = some p → r.moved inward p ≠ 0 →
        p ∈ r.own ∧ r.manager.leases[id]? = some p := by
  rw [Record.movedBy, Record.total]
  cases he : r.manager.leases[id]? with
  | none =>
    rw [Option.map_none, Option.getD_none, eq_comm, List.sum_eq_zero_iff, List.forall_mem_map]
    constructor
    · rintro h p (hp | hp) hne
      · exact absurd (h p hp) hne
      · cases hp
    · intro h p hp
      by_contra hne
      cases (h p (.inl hp) hne).2
  | some p =>
    rw [Option.map_some, Option.getD_some]
    by_cases hp : p ∈ r.own
    · rw [sum_eq_term (r.moved inward) hk.nodup hp]
      constructor
      · rintro h q (hq | hq) hne
        · exact ⟨hq, by rw [h q hq hne]⟩
        · cases hq
          exact ⟨hp, rfl⟩
      · intro h q hq hne
        exact (Option.some.inj (h q (.inl hq) hne).2).symm
    · -- an entry from before the creation: the lease has registered nothing yet
      have hnil : r.own = [] := by
        by_contra hne
        exact hp (hk.entry hne p he)
      rw [hnil]
      constructor
      · rintro h q (hq | hq) hne
        · cases hq
        · cases hq
          exact absurd h hne
      · intro h
        by_contra hne
        cases (h p (.inr rfl) hne).1

theorem Record.movedBy_mono (h : ∀ inward p, r₁.moved inward p ≤ r₂.moved inward p)
    (inward : Bool) : r.movedBy r₁ id inward ≤ r.movedBy r₂ id inward := by
  rw [Record.movedBy, Record.movedBy]
  cases r.manager.leases[id]? with
  | none => exact le_rfl
  | some p => exact h inward p

/-- Of two counters the later one is at least the earlier one, when the first was loaded before
the second state was found. -/
theorem SoleConnection.movedBy_le (hs : SoleConnection id rs)
    (hmono : ∀ (i j : Nat) (q q' : Record), i ≤ j → rs[i]? = some q → rs[j]? = some q' →
      ∀ inward p, q.moved inward p ≤ q'.moved inward p)
    {r' r₁' : Record} {i j i' j' : Nat} (hi : rs[i]? = some r) (hj : rs[j]? = some r₁)
    (hi' : rs[i']? = some r') (hj' : rs[j']? = some r₁') (inward : Bool) (hij : i ≤ j)
    (hji : j ≤ i') (hij' : i' ≤ j') : r.movedBy r₁ id inward ≤ r'.movedBy r₁' id inward :=
  calc r.movedBy r₁ id inward
      ≤ r.movedBy r' id inward := Record.movedBy_mono (hmono j i' r₁ r' hji hj hi') inward
    _ ≤ r'.movedBy r' id inward := hs.earlier i i' r r' (hij.trans hji) hi hi' inward
    _ ≤ r'.movedBy r₁' id inward := Record.movedBy_mono (hmono i' j' r' r₁' hij' hi' hj') inward

theorem soleConnection_of_moved (hk : ∀ q ∈ rs, q.Kept id)
    (h : ∀ r ∈ rs, ∀ p < r.manager.sessions.length, ∀ inward, r.moved inward p ≠ 0 →
      p ∈ r.own ∧ r.manager.leases[id]? = some p) : SoleConnection id rs := by
  have hall : ∀ r ∈ rs, ∀ p inward, r.moved inward p ≠ 0 →
      p ∈ r.own ∧ r.manager.leases[id]? = some p := by
    intro r hr p inward hne
    apply h r hr p ?_ inward hne
    by_contra hp
    exact hne ((hk r hr).unborn p (not_lt.1 hp) inward)
  constructor
  · intro i j r r' _ _ hj inward
    rw [Record.movedBy]
    cases hp : r.manager.leases[id]? with
    | none => exact Nat.zero_le _
    | some p =>
      rw [Option.map_some, Option.getD_some]
      by_cases hz : r'.moved inward p = 0
      · rw [hz]
        exact Nat.zero_le _
      · rw [Record.movedBy, (hall r' (List.mem_of_getElem? hj) p inward hz).2]
        exact le_rfl
  · intro i r p hi _ _ inward hne
    exact hall r (List.mem_of_getElem? hi) p inward hne

end Answers

/-- The answers of `GetLease` count the traffic of a lease exactly when, at every moment, the
connection then registered accounts for it. -/
theorem countsTraffic_iff (cap : Int) (cfg : TunnelConfig) (id : GoString) (before during : List Op)
    (rs : List Record) (h : Record.life cap id before during = some rs) :
    CountsTraffic cfg id rs ↔ SoleConnection id rs := by
  obtain ⟨hk, hmono⟩ := Record.life_spec h
  have hat : ∀ i < rs.length, ∃ r, rs[i]? = some r := by
    intro i hi
    exact ⟨rs.get ⟨i, hi⟩, List.getElem?_eq_getElem hi⟩
  constructor
  · intro hc
    -- the answers do not depend on which lease with the id is in the store
    have hl : (Store.newLease ⟨id, 0, []⟩ [] 0 0).leaseID = id := rfl
    constructor
    · intro i j r r' hij hi hj inward
      -- one call finds the earlier state and loads late, the next one comes after it
      let q : Reading := ⟨i, j, j, j, hij, le_rfl, le_rfl⟩
      have hq := getLease_moved cfg q hk hl hi hj hj
      have hq' := getLease_moved cfg (.at j) hk hl hj hj hj
      have hle := hc.forward _ _ q (.at j) hl hl le_rfl (List.getElem?_eq_some_iff.1 hj).1
      rw [hq.1, hq.2, hq'.1, hq'.2] at hle
      cases inward with
      | true => exact Int.ofNat_le.1 hle.1
      | false => exact Int.ofNat_le.1 hle.2
    · intro i r p hi hr hp inward
      have hq := getLease_moved cfg (.at i) hk hl hi hi hi
      have heq := hc.total _ i r hl hi hr
      rw [hq.1, hq.2] at heq
      have hall := (hk r (List.mem_of_getElem? hi)).movedBy_eq_total inward
      cases inward with
      | true => exact hall.1 (Int.ofNat.inj heq.1) p hp
      | false => exact hall.1 (Int.ofNat.inj heq.2) p hp
  · intro hs
    constructor
    · intro l l' q q' hl hl' hqq hlen
      -- all moments of the first call come before those of the second
      have h₁ := q.visitors_after
      have h₂ := q.bytesIn_after
      have h₃ := q.bytesOut_after
      have h₁' := q'.visitors_after
      have h₂' := q'.bytesIn_after
      have h₃' := q'.bytesOut_after
      obtain ⟨r, hr⟩ := hat q.locked (by omega)
      obtain ⟨ri, hri⟩ := hat q.bytesIn (by omega)
      obtain ⟨ro, hro⟩ := hat q.bytesOut (by omega)
      obtain ⟨r', hr'⟩ := hat q'.locked (by omega)
      obtain ⟨ri', hri'⟩ := hat q'.bytesIn (by omega)
      obtain ⟨ro', hro'⟩ := hat q'.bytesOut (by omega)
      have hq := getLease_moved cfg q hk hl hr hri hro
      have hq' := getLease_moved cfg q' hk hl' hr' hri' hro'
      rw [hq.1, hq.2, hq'.1, hq'.2]
      constructor
      · exact Int.ofNat_le.2 (hs.movedBy_le hmono hr hri hr' hri' true (by omega) (by omega)
          (by omega))
      · exact Int.ofNat_le.2 (hs.movedBy_le hmono hr hro hr' hro' false (by omega) (by omega)
          (by omega))
    · intro l i r hl hi hr
      have hq := getLease_moved cfg (.at i) hk hl hi hi hi
      rw [hq.1, hq.2]
      have hall : ∀ inward, r.movedBy r id inward = r.total inward := fun inward =>
        ((hk r (List.mem_of_getElem? hi)).movedBy_eq_total inward).2
          fun p hp => hs.quiet i r p hi hr hp inward
      rw [hall true, hall false]
      exact ⟨rfl, rfl⟩

theorem Record.life_of_check (cap : Int) (id : GoString) (before during : List Op)
    (P : List Record → Prop) [DecidablePred P]
    (h : (Record.life cap id before during).any (fun rs => decide (P rs)) = true) :
    ∃ rs, Record.life cap id before during = some rs ∧ P rs := by
  obtain ⟨rs, hrs, hp⟩ := (Option.any_eq_true _ _).1 h
  exact ⟨rs, hrs, of_decide_eq_true hp⟩

/-- A client with one visitor, both of whose copies end. -/
def sampleVisit : List Op :=
  [Manager.sampleRegister 0, Manager.sampleForward 0, .accept 0, .visit 0 (.screen true),
    .visit 0 .track, .visit 0 .load, .visit 0 .swap, .visit 0 (.openChannel true),
    .visit 0 .record, .visit 0 (.copied true 5), .visit 0 (.copied false 7)]

def sampleTunnel : TunnelConfig := ⟨lit "tunnel.example", 2222, 60, 3600⟩

theorem countsTraffic_visit :
    ∃ rs, Record.life 1 (lit "a") [] sampleVisit = some rs ∧
      ((getLease sampleTunnel Manager.sampleLease rs (.at 11)).bytesIn = 5 ∧
        (getLease sampleTunnel Manager.sampleLease rs (.at 11)).bytesOut = 7) ∧
      CountsTraffic sampleTunnel (lit "a") rs := by
  obtain ⟨rs, hl, hb, hm⟩ := Record.life_of_check 1 (lit "a") [] sampleVisit
    (fun rs => ((getLease sampleTunnel Manager.sampleLease rs (.at 11)).bytesIn = 5 ∧
        (getLease sampleTunnel Manager.sampleLease rs (.at 11)).bytesOut = 7) ∧
      ∀ r ∈ rs, ∀ p < r.manager.sessions.length, ∀ inward, r.moved inward p ≠ 0 →
        p ∈ r.own ∧ r.manager.leases[lit "a"]? = some p) (by decide)
  refine ⟨rs, hl, hb, (countsTraffic_iff 1 sampleTunnel (lit "a") [] sampleVisit rs hl).2 ?_⟩
  exact soleConnection_of_moved (Record.life_spec hl).1 hm

/-- The client leaves after the visit and comes back. -/
theorem getLease_forgets :
    ∃ rs, Record.life 1 (lit "a") []
        (sampleVisit ++ [.onConnClosed (lit "a") 0, Manager.sampleRegister 1]) = some rs ∧
      (getLease sampleTunnel Manager.sampleLease rs (.at 11)).bytesIn = 5 ∧
      (getLease sampleTunnel Manager.sampleLease rs (.at 12)).bytesIn = 0 ∧
      (getLease sampleTunnel Manager.sampleLease rs (.at 13)).bytesIn = 0 ∧
      (rs[13]?).map (fun r => r.total true) = some 5 ∧
      ¬ CountsTraffic sampleTunnel (lit "a") rs := by
  obtain ⟨rs, hl, hlen, h₁₁, h₁₂, h₁₃, ht⟩ := Record.life_of_check 1 (lit "a") []
    (sampleVisit ++ [.onConnClosed (lit "a") 0, Manager.sampleRegister 1])
    (fun rs => rs.length = 14 ∧
      (getLease sampleTunnel Manager.sampleLease rs (.at 11)).bytesIn = 5 ∧
      (getLease sampleTunnel Manager.sampleLease rs (.at 12)).bytesIn = 0 ∧
      (getLease sampleTunnel Manager.sampleLease rs (.at 13)).bytesIn = 0 ∧
      (rs[13]?).map (fun r => r.total true) = some 5) (by decide)
  refine ⟨rs, hl, h₁₁, h₁₂, h₁₃, ht, ?_⟩
  intro hc
  have hle := (hc.forward Manager.sampleLease Manager.sampleLease (.at 11) (.at 12) rfl rfl
    (by decide) (by rw [hlen]; decide)).1
  rw [h₁₁, h₁₂] at hle
  exact absurd hle (by decide)

end HyruleProxy
