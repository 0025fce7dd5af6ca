import HyruleProxy.Daemon
import HyruleProxy.Heap

namespace HyruleProxy
set_option autoImplicit true

theorem liveAt_eq_some {found : Option Lease} :
    liveAt now found = some l ↔ found = some l ∧ now < l.expiresAt := by
  simp [liveAt, Option.filter_eq_some_iff]

theorem authByToken_get {s : Store} (hs : s.Inv) (h : authByToken s user now = some l) :
    s.get l.leaseID = some l ∧ l.token = user := by
  have hf := (liveAt_eq_some.1 h).1
  rw [Store.findByToken] at hf
  split at hf
  · cases hf
  · rename_i l' hl'
    split at hf
    · rename_i ht
      cases hf
      obtain ⟨r, hr, hl⟩ := Option.bind_eq_some_iff.1 hl'
      obtain ⟨l'', hl'', _, hid⟩ := hs.indexed.byToken hr
      rw [hl] at hl''
      cases hl''
      exact ⟨Store.get_eq_some.2 ⟨r, hid, hl⟩, ht⟩
    · cases hf

namespace Leases

variable {m m' : Leases} {id i : GoString} {st : LeaseState} {h : Handle} {c n : Nat}
  {r : Leases × List Handle} {found : Option Lease} {l : Lease} {now : Time} {hs : List Handle}

/-- A handle of some entry. -/
def Holds (m : Leases) (h : Handle) : Prop :=
  ∃ (id : GoString) (st : LeaseState), m[id]? = some st ∧ h ∈ st.handles

/-- A section that only takes handles out of the entries, and remembers to close them. -/
structure Detaches (m : Leases) (r : Leases × List Handle) : Prop where
  sub : ∀ (id : GoString) (st' : LeaseState), r.1[id]? = some st' →
    ∃ st : LeaseState, m[id]? = some st ∧ st.conn = st'.conn ∧
      ∀ n, st'.forward = some n → st.forward = some n
  held : ∀ h, m.Holds h → r.1.Holds h ∨ h ∈ r.2

theorem Detaches.same (m : Leases) (hs : List Handle) : m.Detaches (m, hs) :=
  ⟨fun _ st hst => ⟨st, hst, rfl, fun _ hn => hn⟩, fun _ hh => .inl hh⟩

theorem Detaches.erase (hst : m[id]? = some st) (hsub : ∀ h ∈ st.handles, h ∈ hs) :
    m.Detaches (m.erase id, hs) := by
  constructor
  · intro i st' hi
    rw [GoMap.get_erase] at hi
    split at hi
    · cases hi
    · exact ⟨st', hi, rfl, fun _ hn => hn⟩
  · rintro h ⟨i, st', hi, hh⟩
    by_cases hid : id = i
    · subst hid
      rw [hst] at hi
      cases hi
      exact .inr (hsub h hh)
    · exact .inl ⟨i, st', by rw [GoMap.get_erase, if_neg hid, hi], hh⟩

theorem mem_handles : h ∈ st.handles ↔ (∃ n, st.forward = some n ∧ h = .listener n) ∨
    h = .conn st.conn := by
  simp only [LeaseState.handles, List.mem_append, Option.mem_toList, List.mem_singleton,
    Option.map_eq_some_iff, eq_comm]

theorem teardown_detaches (m : Leases) (id : GoString) : m.Detaches (m.teardown id) := by
  rw [teardown]
  split
  · exact .same m []
  · rename_i st hst
    exact .erase hst fun h hh => hh

theorem teardown_none (m : Leases) (id : GoString) : (m.teardown id).1[id]? = none := by
  rw [teardown]
  split
  · assumption
  · rw [GoMap.get_erase, if_pos rfl]

theorem cancelForward_detaches (m : Leases) (id : GoString) (c : Nat) :
    m.Detaches (m.cancelForward id c) := by
  rw [cancelForward]
  split
  · exact .same m []
  · rename_i st hst
    split
    · exact .same m []
    · rename_i n hn
      split
      · constructor
        · intro i st' hi
          rw [GoMap.get_insert] at hi
          split at hi
          · subst i
            cases hi
            exact ⟨st, hst, rfl, fun _ hn => nomatch hn⟩
          · exact ⟨st', hi, rfl, fun _ hn => hn⟩
        · rintro h ⟨i, st', hi, hh⟩
          by_cases hid : id = i
          · subst hid
            rw [hst] at hi
            cases hi
            rcases mem_handles.1 hh with ⟨n', hn', rfl⟩ | rfl
            · rw [hn] at hn'
              cases hn'
              exact .inr (List.mem_singleton_self _)
            · refine .inl ⟨id, { st with forward := none }, ?_, mem_handles.2 (.inr rfl)⟩
              rw [GoMap.get_insert, if_pos rfl]
          · exact .inl ⟨i, st', by rw [GoMap.get_insert, if_neg hid, hi], hh⟩
      · exact .same m []

theorem onConnClosed_detaches (m : Leases) (id : GoString) (c : Nat) :
    m.Detaches ((m.onConnClosed id c).1, (m.onConnClosed id c).2 ++ [.conn c]) := by
  rw [onConnClosed]
  split
  · exact .same m _
  · rename_i st hst
    split
    · rename_i hc
      refine .erase hst ?_
      intro h hh
      rw [LeaseState.handles, hc] at hh
      exact hh
    · exact .same m _

theorem registerConn_spec (h : m.registerConn found now c id = some r) :
    ∃ l, found = some l ∧ now < l.expiresAt ∧ r.1 = m.insert id ⟨c, none⟩ ∧
      ∀ st : LeaseState, m[id]? = some st → ∀ h ∈ st.handles, h = .conn c ∨ h ∈ r.2 := by
  rw [registerConn] at h
  split at h
  · cases h
  · rename_i l hl
    obtain ⟨hf, ht⟩ := liveAt_eq_some.1 hl
    cases h
    refine ⟨l, hf, ht, rfl, ?_⟩
    intro st hst h hh
    simp only [hst]
    split
    · rename_i hc
      rcases mem_handles.1 hh with ⟨n, hn, rfl⟩ | rfl
      · simp [hn]
      · exact .inl (by rw [hc])
    · exact .inr hh

theorem startForward_spec {inUse : Int → Bool}
    (h : m.startForward found now c id inUse n = .ok (m', l)) :
    found = some l ∧ now < l.expiresAt ∧ inUse l.allocatedPort = false ∧
      ∃ st : LeaseState, m[id]? = some st ∧ st.conn = c ∧ st.forward = none ∧
        m' = m.insert id { st with forward := some n } := by
  rw [startForward] at h
  split at h
  · cases h
  · rename_i l' hl
    obtain ⟨hf, ht⟩ := liveAt_eq_some.1 hl
    split at h
    · cases h
    · rename_i st hst
      split at h
      · cases h
      · rename_i hc
        split at h
        · cases h
        · rename_i hn
          split at h
          · cases h
          · rename_i hu
            cases h
            exact ⟨hf, ht, by simpa using hu, st, hst, not_not.1 hc, not_not.1 hn, rfl⟩

end Leases

namespace World

variable {w w' : World} {a : Act} {c : Call} {id : GoString} {ag : Agent} {P Q : Lease → Prop}
  {k : Nat} {hd hd' : Handler} {t : Task} {x : Handle} {hs : List Handle} {pc : Pc}
  {r : Leases × List Handle} {m : Leases} {l : Lease} {found : Option Lease} {starts : Bool}
  {now : Time} {inUse : Int → Bool} {user : GoString}

theorem ready_eq_some : w.ready k pc = some hd ↔
    w.handlers[k]? = some hd ∧ w.owed (.handler k) = [] ∧ hd.pc = pc := by
  rw [ready]
  split
  · rename_i hd' hk ho
    split
    · rename_i hp
      simp only [hk, ho, Option.some.injEq]
      exact ⟨fun h => ⟨h, trivial, h ▸ hp⟩, fun h => h.1⟩
    · rename_i hp
      simp only [hk, ho, Option.some.injEq, reduceCtorEq, false_iff, not_and]
      rintro rfl _ rfl
      exact hp rfl
  · rename_i hn
    simp only [reduceCtorEq, false_iff, not_and]
    intro hk ho
    exact absurd ho (hn hd hk)

/-- A goroutine is about to close the handle. -/
def Owed (w : World) (h : Handle) : Prop := ∃ ag, h ∈ w.owed ag

/-- A `Teardown` of the id is still to come. -/
def Pending (w : World) (id : GoString) : Prop :=
  ∃ (k : Nat) (t : Task), w.tasks[k]? = some t ∧ t.tearing = some id

def Has (w : World) : Agent → Prop
  | .handler k => k < w.handlers.length
  | .task k => k < w.tasks.length

theorem has_handler (hk : w.handlers[k]? = some hd) : w.Has (.handler k) :=
  (List.getElem?_eq_some_iff.1 hk).1

/-- The store has a lease with the property under the id, or a `Teardown` will clear it. -/
def Backed (w : World) (id : GoString) (P : Lease → Prop) : Prop :=
  (∃ l, w.store.get id = some l ∧ P l) ∨ w.Pending id

/-- The handle is one of an entry, or a goroutine is about to close it. -/
def Kept (w : World) (h : Handle) : Prop := w.leases.Holds h ∨ w.Owed h

structure Inv (w : World) : Prop where
  store : w.store.Inv
  minted : ∀ id l, w.store.get id = some l → l.token ∈ w.minted
  backed : ∀ (id : GoString) (st : LeaseState), w.leases[id]? = some st → w.Backed id fun l =>
    ∀ (n : Nat) (ln : Listener), st.forward = some n → w.listeners[n]? = some ln →
      ln.port = l.allocatedPort
  found : ∀ sec l, w.mu = some sec → sec.found = some l →
    w.Backed sec.id fun l' => l.allocatedPort = l'.allocatedPort
  holder : ∀ sec, w.mu = some sec →
    ∃ hd : Handler, w.handlers[sec.conn]? = some hd ∧ hd.leaseID = sec.id
  bound : ∀ (id : GoString) (st : LeaseState) (n : Nat), w.leases[id]? = some st →
    st.forward = some n → ∃ ln : Listener, w.listeners[n]? = some ln ∧ ln.lease = id
  own : ∀ (id : GoString) (st : LeaseState), w.leases[id]? = some st →
    ∃ hd : Handler, w.handlers[st.conn]? = some hd ∧ hd.leaseID = id
  served : ∀ (k : Nat) (hd : Handler), w.handlers[k]? = some hd → hd.served = hd.leaseID
  listener : ∀ n, .listener n ∈ w.live → w.Kept (.listener n)
  conn : ∀ (k : Nat) (hd : Handler), .conn k ∈ w.live → w.handlers[k]? = some hd →
    hd.registered ≠ none → w.Kept (.conn k)
  idle : ∀ ag, w.owed ag ≠ [] → w.Has ag

theorem Backed.mono (h : w.Backed id P) (hs : w'.store = w.store) (ht : w'.tasks = w.tasks)
    (hP : ∀ l, P l → Q l) : w'.Backed id Q := by
  rcases h with ⟨l, hl, hp⟩ | ⟨k, t, hk, hid⟩
  · exact .inl ⟨l, by rw [hs, hl], hP l hp⟩
  · exact .inr ⟨k, t, by rw [ht, hk], hid⟩

theorem Backed.calls (h : w.Backed id P) (hs : w.store.Inv)
    (hr : ∀ id l, w.store.get id = some l → (c.run w.store).store.get id = none → w.Pending id)
    (hP : ∀ l e, P l → P { l with expiresAt := e }) : (w.calls c).Backed id P := by
  rcases h with ⟨l, hl, hp⟩ | hpend
  · rcases Call.fate (c := c) hs hl with hg | ⟨d, _, _, hg⟩ | ⟨hg, _⟩
    · exact .inl ⟨l, hg, hp⟩
    · exact .inl ⟨_, hg, hP l _ hp⟩
    · exact .inr (hr id l hl hg)
  · exact .inr hpend

theorem Inv.fresh (h : w.Inv) (ht : ∀ t, c.token = some t → t ∉ w.minted) :
    Call.Fresh w.store.get (c.token.toList ++ []) := by
  intro id l hl hm
  rw [List.append_nil, Option.mem_toList] at hm
  exact ht _ hm (h.minted id l hl)

theorem Inv.calls (h : w.Inv) (ht : ∀ t, c.token = some t → t ∉ w.minted)
    (hr : ∀ id l, w.store.get id = some l → (c.run w.store).store.get id = none →
      w.Pending id) : (w.calls c).Inv := by
  have hsp := Call.spec_of_fresh h.store c (h.fresh ht)
  refine ⟨hsp.inv, ?_, ?_, ?_, h.holder, h.bound, h.own, h.served, h.listener, h.conn, h.idle⟩
  · intro id l hl
    rcases (Call.origin h.store hl).token with ⟨l', hl', he⟩ | hm
    · rw [← he]
      exact List.mem_append_right _ (h.minted id l' hl')
    · exact List.mem_append_left _ (Option.mem_toList.2 hm)
  · intro id st hst
    exact (h.backed id st hst).calls h.store hr fun _ _ hp => hp
  · intro sec l hmu hl
    exact (h.found sec l hmu hl).calls h.store hr fun _ _ hp => hp

theorem Inv.tasks (h : w.Inv) {ts : List Task} (hlen : w.tasks.length ≤ ts.length)
    (hp : ∀ id, w.Pending id → ({ w with tasks := ts } : World).Pending id) :
    ({ w with tasks := ts } : World).Inv := by
  have hb : ∀ id P, w.Backed id P → ({ w with tasks := ts } : World).Backed id P := by
    rintro id P (hl | hpend)
    · exact .inl hl
    · exact .inr (hp id hpend)
  refine ⟨h.store, h.minted, fun id st hst => hb _ _ (h.backed id st hst),
    fun sec l hmu hl => hb _ _ (h.found sec l hmu hl), h.holder, h.bound, h.own, h.served,
    h.listener, h.conn, ?_⟩
  intro ag ho
  cases ag with
  | handler k => exact h.idle (.handler k) ho
  | task k => exact lt_of_lt_of_le (h.idle (.task k) ho) hlen

theorem owes_owed (w : World) (ag b : Agent) (hs : List Handle) :
    (w.owes ag hs).owed b = if b = ag then hs else w.owed b :=
  Function.update_apply ..

theorem handlers_setHandler (hk : w.handlers[k]? = some hd) (hd' : Handler) (j : Nat) :
    (w.setHandler k hd').handlers[j]? = if k = j then some hd' else w.handlers[j]? :=
  getElem?_set_some hk hd' j

theorem tasks_setTask (hk : w.tasks[k]? = some t) (t' : Task) (j : Nat) :
    (w.setTask k t').tasks[j]? = if k = j then some t' else w.tasks[j]? :=
  getElem?_set_some hk t' j

theorem Pending.push (h : w.Pending id) (t : Task) :
    ({ w with tasks := w.tasks ++ [t] } : World).Pending id := by
  obtain ⟨k, t', hk, hid⟩ := h
  refine ⟨k, t', ?_, hid⟩
  have hlt := (List.getElem?_eq_some_iff.1 hk).1
  exact (List.getElem?_append_left hlt).trans hk

theorem Pending.set (h : w.Pending id) (hk : w.tasks[k]? = some t) (ht : t.tearing ≠ some id)
    (t' : Task) : (w.setTask k t').Pending id := by
  obtain ⟨j, u, hj, hid⟩ := h
  refine ⟨j, u, ?_, hid⟩
  rw [tasks_setTask hk, if_neg, hj]
  rintro rfl
  rw [hk] at hj
  cases hj
  exact ht hid

theorem Owed.owes (h : w.Owed x) (ho : w.owed ag = []) (hs : List Handle) :
    (w.owes ag hs).Owed x := by
  obtain ⟨b, hb⟩ := h
  refine ⟨b, ?_⟩
  rw [owes_owed, if_neg]
  · exact hb
  · rintro rfl
    rw [ho] at hb
    cases hb

theorem owed_owes (w : World) (ag : Agent) (hx : x ∈ hs) : (w.owes ag hs).Owed x := by
  refine ⟨ag, ?_⟩
  rw [owes_owed, if_pos rfl]
  exact hx

theorem Inv.idle_owes (h : w.Inv) (ha : w.Has ag) (hs : List Handle) :
    ∀ b, (w.owes ag hs).owed b ≠ [] → w.Has b := by
  intro b hb
  rw [owes_owed] at hb
  split at hb
  · rename_i he
    rw [he]
    exact ha
  · exact h.idle b hb

theorem Inv.detach (h : w.Inv) (ha : w.Has ag) (ho : w.owed ag = []) (hd : w.leases.Detaches r) :
    (w.unlock ag r).Inv := by
  have hk : ∀ x, w.Kept x → (w.unlock ag r).Kept x := by
    rintro x (hx | hx)
    · rcases hd.held x hx with hx | hx
      · exact .inl hx
      · exact .inr (owed_owes _ ag hx)
    · exact .inr (Owed.owes (w := { w with leases := r.1, mu := none }) hx ho r.2)
  refine ⟨h.store, h.minted, ?_, (fun _ _ hmu => nomatch hmu), (fun _ hmu => nomatch hmu), ?_, ?_,
    h.served, fun n hn => hk _ (h.listener n hn),
    fun j hd hl hj hr => hk _ (h.conn j hd hl hj hr), h.idle_owes ha r.2⟩
  · intro id st' hst'
    obtain ⟨st, hst, _, hf⟩ := hd.sub id st' hst'
    exact (h.backed id st hst).mono rfl rfl fun l hp n ln hn => hp n ln (hf n hn)
  · intro id st' n hst' hn
    obtain ⟨st, hst, _, hf⟩ := hd.sub id st' hst'
    exact h.bound id st n hst (hf n hn)
  · intro id st' hst'
    obtain ⟨st, hst, hc, _⟩ := hd.sub id st' hst'
    rw [← hc]
    exact h.own id st hst

theorem Inv.setHandler (h : w.Inv) (hk : w.handlers[k]? = some hd) (hl : hd'.leaseID = hd.leaseID)
    (hs : hd'.served = hd.leaseID) (hr : hd'.registered = hd.registered ∨ w.Kept (.conn k)) :
    (w.setHandler k hd').Inv := by
  have hex : ∀ (j : Nat) (id : GoString),
      (∃ hd : Handler, w.handlers[j]? = some hd ∧ hd.leaseID = id) →
      ∃ hd : Handler, (w.setHandler k hd').handlers[j]? = some hd ∧ hd.leaseID = id := by
    rintro j id ⟨u, hu, hid⟩
    rw [handlers_setHandler hk]
    by_cases hj : k = j
    · subst hj
      rw [hk] at hu
      cases hu
      exact ⟨hd', by simp, hl.trans hid⟩
    · exact ⟨u, by simp [hj, hu], hid⟩
  refine ⟨h.store, h.minted, h.backed, h.found, fun sec hmu => hex _ _ (h.holder sec hmu), h.bound,
    fun id st hst => hex _ _ (h.own id st hst), ?_, h.listener, ?_, ?_⟩
  · intro j u hu
    rw [handlers_setHandler hk] at hu
    split at hu
    · cases hu
      rw [hs, hl]
    · exact h.served j u hu
  · intro j u hlive hu hreg
    rw [handlers_setHandler hk] at hu
    split at hu
    · cases hu
      subst j
      rcases hr with hr | hr
      · rw [hr] at hreg
        exact h.conn k hd hlive hk hreg
      · exact hr
    · exact h.conn j u hlive hu hreg
  · intro ag ho
    cases ag with
    | handler j => exact lt_of_lt_of_eq (h.idle (.handler j) ho) List.length_set.symm
    | task j => exact h.idle (.task j) ho

theorem Inv.erase (h : w.Inv) (x : Handle) : ({ w with live := w.live.erase x } : World).Inv :=
  ⟨h.store, h.minted, h.backed, h.found, h.holder, h.bound, h.own, h.served,
    fun n hn => h.listener n (Finset.mem_of_mem_erase hn),
    fun k hd hl => h.conn k hd (Finset.mem_of_mem_erase hl), h.idle⟩

theorem Inv.close (h : w.Inv) (ho : w.owed ag = x :: hs) :
    (World.owes { w with live := w.live.erase x } ag hs).Inv := by
  have hk : ∀ y ≠ x, w.Kept y → (World.owes { w with live := w.live.erase x } ag hs).Kept y := by
    rintro y hy (hm | ⟨b, hb⟩)
    · exact .inl hm
    · by_cases he : b = ag
      · subst he
        rw [ho] at hb
        exact .inr (owed_owes _ b ((List.mem_cons.1 hb).resolve_left hy))
      · exact .inr ⟨b, by rw [owes_owed, if_neg he]; exact hb⟩
  refine ⟨h.store, h.minted, h.backed, h.found, h.holder, h.bound, h.own, h.served, ?_, ?_,
    h.idle_owes (h.idle ag (by rw [ho]; exact List.cons_ne_nil x hs)) hs⟩
  · intro n hn
    exact hk _ (Finset.ne_of_mem_erase hn) (h.listener n (Finset.mem_of_mem_erase hn))
  · intro k hd hl hkd hr
    exact hk _ (Finset.ne_of_mem_erase hl) (h.conn k hd (Finset.mem_of_mem_erase hl) hkd hr)

theorem Inv.push (h : w.Inv) (hd : Handler) (hs : hd.served = hd.leaseID)
    (hr : hd.registered = none) : ({ w with
      handlers := w.handlers ++ [hd]
      live := insert (.conn w.handlers.length) w.live } : World).Inv := by
  have hex : ∀ (j : Nat) (id : GoString),
      (∃ hd : Handler, w.handlers[j]? = some hd ∧ hd.leaseID = id) →
      ∃ u : Handler, (w.handlers ++ [hd])[j]? = some u ∧ u.leaseID = id := by
    rintro j id ⟨u, hu, hid⟩
    have hlt := (List.getElem?_eq_some_iff.1 hu).1
    exact ⟨u, (List.getElem?_append_left hlt).trans hu, hid⟩
  refine ⟨h.store, h.minted, h.backed, h.found, fun sec hmu => hex _ _ (h.holder sec hmu), h.bound,
    fun id st hst => hex _ _ (h.own id st hst), ?_, ?_, ?_, ?_⟩
  · intro j u hu
    rw [getElem?_push] at hu
    split at hu
    · cases hu
      exact hs
    · exact h.served j u hu
  · intro n hn
    rcases Finset.mem_insert.1 hn with he | hn
    · cases he
    · exact h.listener n hn
  · intro j u hl hu hreg
    rw [getElem?_push] at hu
    split at hu
    · cases hu
      exact absurd hr hreg
    · rename_i hj
      rcases Finset.mem_insert.1 hl with he | hl
      · cases he
        exact absurd rfl hj
      · exact h.conn j u hl hu hreg
  · intro ag ho
    cases ag with
    | handler j =>
      have hlt := h.idle (.handler j) ho
      exact lt_of_lt_of_le hlt (by simp)
    | task j => exact h.idle (.task j) ho

theorem Inv.free (h : w.Inv) : ({ w with mu := none } : World).Inv :=
  ⟨h.store, h.minted, h.backed, (fun _ _ hmu => nomatch hmu), (fun _ hmu => nomatch hmu), h.bound,
    h.own, h.served, h.listener, h.conn, h.idle⟩

theorem Inv.lock (h : w.Inv) (hk : w.handlers[k]? = some hd) (hid : hd.leaseID = id)
    (starts : Bool) : ({ w with mu := some ⟨k, id, starts, w.store.get id⟩ } : World).Inv := by
  refine ⟨h.store, h.minted, h.backed, ?_, ?_, h.bound, h.own, h.served, h.listener, h.conn,
    h.idle⟩
  · rintro sec l ⟨⟩ hl
    exact .inl ⟨l, hl, rfl⟩
  · rintro sec ⟨⟩
    exact ⟨hd, hk, hid⟩

theorem Inv.teardown (h : w.Inv) (hk : w.tasks[k]? = some t) (ho : w.owed (.task k) = [])
    (ht : t.tearing = some id) (t' : Task) :
    ((w.unlock (.task k) (w.leases.teardown id)).setTask k t').Inv := by
  have ha : w.Has (.task k) := (List.getElem?_eq_some_iff.1 hk).1
  have hd := h.detach ha ho (w.leases.teardown_detaches id)
  refine ⟨hd.store, hd.minted, ?_, (fun _ _ hmu => nomatch hmu), (fun _ hmu => nomatch hmu),
    hd.bound,
    hd.own, hd.served, hd.listener, hd.conn, ?_⟩
  · intro i st hst
    rcases hd.backed i st hst with hl | hp
    · exact .inl hl
    · refine .inr (Pending.set hp (t := t) hk ?_ t')
      rw [ht]
      rintro ⟨⟩
      have hn := w.leases.teardown_none id
      change (w.leases.teardown id).1[id]? = some st at hst
      rw [hn] at hst
      cases hst
  · intro b hb
    cases b with
    | handler j => exact hd.idle (.handler j) hb
    | task j => exact lt_of_lt_of_eq (hd.idle (.task j) hb) List.length_set.symm

theorem Inv.register (h : w.Inv) (hmu : w.mu = some ⟨k, id, starts, found⟩)
    (hr : w.ready k pc = some hd) (hreg : w.leases.registerConn found now k id = some r)
    (hl : hd'.leaseID = hd.leaseID) (hs : hd'.served = hd.served) :
    ((w.unlock (.handler k) r).setHandler k hd').Inv := by
  obtain ⟨hk, ho, _⟩ := ready_eq_some.1 hr
  obtain ⟨l, hf, _, hm, hold⟩ := Leases.registerConn_spec hreg
  obtain ⟨m, owed⟩ := r
  cases hm
  have hself : (w.leases.insert id ⟨k, none⟩)[id]? = some ⟨k, none⟩ := by
    rw [GoMap.get_insert, if_pos rfl]
  have hkeep : ∀ x, w.Kept x →
      (w.unlock (.handler k) (w.leases.insert id ⟨k, none⟩, owed)).Kept x := by
    rintro x (⟨i, st, hst, hx⟩ | hx)
    · by_cases hi : id = i
      · subst hi
        rcases hold st hst x hx with rfl | hx
        · exact .inl ⟨id, _, hself, Leases.mem_handles.2 (.inr rfl)⟩
        · exact .inr (owed_owes _ _ hx)
      · exact .inl ⟨i, st, by rw [unlock, owes, GoMap.get_insert, if_neg hi, hst], hx⟩
    · exact .inr (Owed.owes (w := { w with leases := _, mu := none }) hx ho owed)
  have hid : hd.leaseID = id := by
    obtain ⟨u, hu, hid⟩ := h.holder _ hmu
    rw [hk] at hu
    cases hu
    exact hid
  have hinv : (w.unlock (.handler k) (w.leases.insert id ⟨k, none⟩, owed)).Inv := by
    refine ⟨h.store, h.minted, ?_, (fun _ _ hmu => nomatch hmu), (fun _ hmu => nomatch hmu), ?_, ?_,
      h.served, fun n hn => hkeep _ (h.listener n hn),
      fun j u hlive hj hu => hkeep _ (h.conn j u hlive hj hu),
      h.idle_owes (has_handler hk) owed⟩
    · intro i st hst
      change (w.leases.insert id ⟨k, none⟩)[i]? = some st at hst
      rw [GoMap.get_insert] at hst
      split at hst
      · subst i
        cases hst
        exact (h.found _ l hmu hf).mono rfl rfl fun _ _ n ln hn => nomatch hn
      · exact (h.backed i st hst).mono rfl rfl fun _ hp => hp
    · intro i st n hst hn
      change (w.leases.insert id ⟨k, none⟩)[i]? = some st at hst
      rw [GoMap.get_insert] at hst
      split at hst
      · cases hst
        cases hn
      · exact h.bound i st n hst hn
    · intro i st hst
      change (w.leases.insert id ⟨k, none⟩)[i]? = some st at hst
      rw [GoMap.get_insert] at hst
      split at hst
      · subst i
        cases hst
        exact ⟨hd, hk, hid⟩
      · exact h.own i st hst
  exact hinv.setHandler hk hl (hs.trans (h.served k hd hk))
    (.inr (.inl ⟨id, _, hself, Leases.mem_handles.2 (.inr rfl)⟩))

theorem Inv.start (h : w.Inv) (hmu : w.mu = some ⟨k, id, starts, found⟩)
    (hst : w.leases.startForward found now k id inUse w.listeners.length = .ok (m, l)) :
    ({ w with
      leases := m
      mu := none
      listeners := w.listeners ++ [⟨id, l.token, l.allocatedPort, k⟩]
      live := insert (.listener w.listeners.length) w.live } : World).Inv := by
  obtain ⟨hf, _, _, st, hm, hc, hn, rfl⟩ := Leases.startForward_spec hst
  have hself : (w.leases.insert id { st with forward := some w.listeners.length })[id]? =
      some { st with forward := some w.listeners.length } := by
    rw [GoMap.get_insert, if_pos rfl]
  have hkeep : ∀ x, w.Kept x →
      Leases.Holds (w.leases.insert id { st with forward := some w.listeners.length }) x ∨
        w.Owed x := by
    rintro x (⟨i, st', hst', hx⟩ | hx)
    · by_cases hi : id = i
      · subst hi
        rw [hm] at hst'
        cases hst'
        rcases Leases.mem_handles.1 hx with ⟨n, hn', _⟩ | rfl
        · rw [hn] at hn'
          cases hn'
        · exact .inl ⟨id, _, hself, Leases.mem_handles.2 (.inr rfl)⟩
      · exact .inl ⟨i, st', by rw [GoMap.get_insert, if_neg hi, hst'], hx⟩
    · exact .inr hx
  have hold : ∀ (i : GoString) (st' : LeaseState) (n : Nat), w.leases[i]? = some st' →
      st'.forward = some n → n ≠ w.listeners.length := by
    intro i st' n hst' hn'
    obtain ⟨ln, hln, _⟩ := h.bound i st' n hst' hn'
    exact (List.getElem?_eq_some_iff.1 hln).1.ne
  refine ⟨h.store, h.minted, ?_, (fun _ _ hmu => nomatch hmu), (fun _ hmu => nomatch hmu), ?_, ?_,
    h.served, ?_, ?_, h.idle⟩
  · intro i st' hst'
    rw [GoMap.get_insert] at hst'
    split at hst'
    · subst i
      cases hst'
      refine (h.found _ l hmu hf).mono rfl rfl ?_
      rintro l' hp n ln ⟨⟩ hln
      rw [getElem?_push, if_pos rfl] at hln
      cases hln
      exact hp
    · refine (h.backed i st' hst').mono rfl rfl ?_
      intro l' hp n ln hn' hln
      rw [getElem?_push, if_neg (hold i st' n hst' hn')] at hln
      exact hp n ln hn' hln
  · intro i st' n hst' hn'
    rw [GoMap.get_insert] at hst'
    split at hst'
    · subst i
      cases hst'
      cases hn'
      exact ⟨_, by rw [getElem?_push, if_pos rfl], rfl⟩
    · obtain ⟨ln, hln, hid⟩ := h.bound i st' n hst' hn'
      exact ⟨ln, by rw [getElem?_push, if_neg (hold i st' n hst' hn'), hln], hid⟩
  · intro i st' hst'
    rw [GoMap.get_insert] at hst'
    split at hst'
    · subst i
      cases hst'
      exact h.own id st hm
    · exact h.own i st' hst'
  · intro n hn'
    rcases Finset.mem_insert.1 hn' with he | hn'
    · cases he
      exact .inl ⟨id, _, hself, Leases.mem_handles.2 (.inl ⟨_, rfl, rfl⟩)⟩
    · exact hkeep _ (h.listener n hn')
  · intro j u hl hj hu
    rcases Finset.mem_insert.1 hl with he | hl
    · cases he
    · exact hkeep _ (h.conn j u hl hj hu)

theorem removes_nothing (hs : w.store.Inv) (hl : w.store.get id = some l)
    (hn : (c.run w.store).store.get id = none) :
    c = .revoke id true ∧ (c.run w.store).result = .done (.ok ()) ∨
      c = .markExpired id true ∨
      ∃ cutoff, c = .markExpiredIfBefore id cutoff true ∧
        (c.run w.store).result = .expiry ⟨true, true, none⟩ := by
  rcases Call.fate (c := c) hs hl with hg | ⟨d, _, _, hg⟩ | ⟨_, hr⟩
  · rw [hg] at hn
    cases hn
  · rw [hg] at hn
    cases hn
  · rcases hr with hr | ⟨hr, _⟩ | ⟨cutoff, hr, _, hres⟩
    · exact .inl hr
    · exact .inr (.inl hr)
    · exact .inr (.inr ⟨cutoff, hr, hres⟩)

theorem Inv.step (h : w.Inv) (hst : w.step a = some w') : w'.Inv := by
  cases step_cases hst with
  | create p env ht =>
    refine h.calls ht ?_
    intro id l hl hn
    rcases removes_nothing h.store hl hn with ⟨hc, _⟩ | hc | ⟨_, hc, _⟩ <;> cases hc
  | extend id d o =>
    refine h.calls (fun t ht => nomatch ht) ?_
    intro id l hl hn
    rcases removes_nothing h.store hl hn with ⟨hc, _⟩ | hc | ⟨_, hc, _⟩ <;> cases hc
  | refuse id commits hr =>
    refine h.calls (fun t ht => nomatch ht) ?_
    intro i l hl hn
    rcases removes_nothing h.store hl hn with ⟨hc, hres⟩ | hc | ⟨_, hc, _⟩
    · cases hc
      exact absurd (Reply.done.inj hres) hr
    · cases hc
    · cases hc
  | revoke id commits l hl hr =>
    refine (h.tasks (by simp) fun i hp => hp.push _).calls (fun t ht => nomatch ht) ?_
    intro i l' hl' hn
    rcases removes_nothing h.store hl' hn with ⟨hc, _⟩ | hc | ⟨_, hc, _⟩
    · cases hc
      exact ⟨w.tasks.length, .revoking id l.token, by simp, rfl⟩
    · cases hc
    · cases hc
  | sweep cutoff todo => exact h.tasks (by simp) fun i hp => hp.push _
  | mark k i commits id cutoff todo hk =>
    refine (h.tasks (by simp) fun i hp => hp.set hk nofun _).calls (fun t ht => nomatch ht) ?_
    intro j l hl hn
    rcases removes_nothing h.store hl hn with ⟨hc, _⟩ | hc | ⟨_, hc, hres⟩
    · cases hc
    · cases hc
    · cases hc
      have he := Reply.expiry.inj hres
      refine ⟨k, _, getElem?_set_some hk _ k |>.trans (if_pos rfl), ?_⟩
      rw [he]
      rfl
  | teardown k t id hmu hk ho ht => exact h.teardown hk ho ht t.torn
  | finish k id token hk ho => exact h.tasks (by simp) fun i hp => hp.set hk nofun _
  | close ag x hs ho => exact h.close ho
  | auth user now l hl => exact h.push _ rfl rfl
  | drop c now hd hr =>
    obtain ⟨hk, _⟩ := ready_eq_some.1 hr
    exact (h.erase _).setHandler hk rfl (h.served c hd hk) (.inl rfl)
  | check c now hd l hr hl =>
    obtain ⟨hk, _⟩ := ready_eq_some.1 hr
    exact h.setHandler hk rfl (h.store.indexed.own_id hl) (.inl rfl)
  | lockRegister c hd hmu hr =>
    obtain ⟨hk, _⟩ := ready_eq_some.1 hr
    exact h.lock hk rfl false
  | refuseConn now c id found hd hmu hr =>
    obtain ⟨hk, ho, _⟩ := ready_eq_some.1 hr
    exact (h.detach (has_handler hk) ho (.same _ _)).setHandler hk rfl (h.served c hd hk) (.inl rfl)
  | register now c id found hd r hmu hr hreg => exact h.register hmu hr hreg rfl rfl
  | lockStart c hd hmu hr =>
    obtain ⟨hk, _⟩ := ready_eq_some.1 hr
    exact h.lock hk (h.served c hd hk).symm true
  | gone now portInUse c id found hd hmu hr =>
    obtain ⟨hk, ho, _⟩ := ready_eq_some.1 hr
    exact (h.detach (has_handler hk) ho (.same _ _)).setHandler hk rfl (h.served c hd hk) (.inl rfl)
  | fail now portInUse => exact h.free
  | start now portInUse c id found hd m l hmu hr hsf => exact h.start hmu hsf
  | cancel c hd hmu hr =>
    obtain ⟨hk, ho, _⟩ := ready_eq_some.1 hr
    exact h.detach (has_handler hk) ho (w.leases.cancelForward_detaches hd.served c)
  | leave c hd pc hmu hr =>
    obtain ⟨hk, ho, _⟩ := ready_eq_some.1 hr
    have hdet := h.detach (has_handler hk) ho (w.leases.onConnClosed_detaches hd.leaseID c)
    exact hdet.setHandler hk rfl
      (h.served c hd hk) (.inl rfl)
  | hangup c => exact h.erase _

end World

end HyruleProxy
