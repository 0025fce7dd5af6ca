import HyruleProxy.Sessions

namespace HyruleProxy
set_option autoImplicit true

namespace Manager

variable {m m' : Manager} {id : GoString} {p c n : Nat} {st st' : Session} {cap : Int} {op : Op}
  {found : Option Lease} {now : Time} {inUse : Int → Bool} {ops : List Op}

/-- The entries point to sessions of their own. -/
structure Sound (m : Manager) : Prop where
  valid : ∀ (id : GoString) (p : Nat), m.leases[id]? = some p → p < m.sessions.length
  inj : ∀ (id id' : GoString) (p : Nat), m.leases[id]? = some p → m.leases[id']? = some p →
    id = id'

/-- The entries by value. -/
def view (m : Manager) : Leases :=
  m.leases.filterMap fun _ p => (m.sessions.map Session.toLeaseState)[p]?

theorem get_view (m : Manager) (id : GoString) :
    m.view[id]? = (m.entry id).map fun e => e.2.toLeaseState := by
  rw [view, Std.ExtTreeMap.getElem?_filterMap', entry]
  cases m.leases[id]? with
  | none => rfl
  | some p => simp [Option.map_map, Function.comp_def]

theorem view_congr (hl : m'.leases = m.leases)
    (hs : m'.sessions.map Session.toLeaseState = m.sessions.map Session.toLeaseState) :
    m'.view = m.view := by
  rw [view, view, hl, hs]

theorem view_erase (m : Manager) (id : GoString) :
    ({ m with leases := m.leases.erase id } : Manager).view = m.view.erase id := by
  apply Std.ExtTreeMap.ext_getElem?
  intro k
  rw [GoMap.get_erase, get_view, get_view, entry, entry, GoMap.get_erase]
  split <;> rfl

theorem view_setSession (hs : m.Sound) (he : m.entry id = some (p, st)) (st' : Session) :
    (m.setSession p st').view = m.view.insert id st'.toLeaseState := by
  obtain ⟨hp, hst⟩ := entry_eq_some.1 he
  apply Std.ExtTreeMap.ext_getElem?
  intro k
  rw [GoMap.get_insert, get_view, get_view, entry, entry]
  by_cases hk : id = k
  · subst hk
    rw [if_pos rfl]
    simp [setSession, hp, getElem?_set_some hst]
  · rw [if_neg hk]
    cases hq : m.leases[k]? with
    | none => simp [setSession, hq]
    | some q =>
      have hne : p ≠ q := by
        rintro rfl
        exact hk (hs.inj id k p hp hq)
      simp [setSession, hq, List.getElem?_set_ne hne]

theorem view_registerConn (hs : m.Sound) (found : Option Lease) (now : Time) (c : Nat)
    (id : GoString) : (m.registerConn found now c id).map (fun r => (r.1.view, r.2)) =
      m.view.registerConn found now c id := by
  rw [registerConn, Leases.registerConn]
  cases liveAt now found with
  | none => rfl
  | some l =>
    have hview : ({ m with
        leases := m.leases.insert id m.sessions.length
        sessions := m.sessions ++ [⟨⟨c, none⟩, 0, 0, 0⟩] } : Manager).view =
        m.view.insert id ⟨c, none⟩ := by
      apply Std.ExtTreeMap.ext_getElem?
      intro k
      rw [GoMap.get_insert, get_view, get_view, entry, entry, GoMap.get_insert]
      split
      · simp
      · cases hq : m.leases[k]? with
        | none => rfl
        | some q =>
          have hlt := hs.valid k q hq
          simp only [Option.bind_some, List.getElem?_append_left hlt]
    simp only [Option.map_some, Option.some.injEq, Prod.mk.injEq]
    refine ⟨hview, ?_⟩
    rw [get_view]
    cases m.entry id with
    | none => rfl
    | some e => rfl

theorem view_startForward (hs : m.Sound) (found : Option Lease) (now : Time) (c : Nat)
    (id : GoString) (inUse : Int → Bool) :
    (m.startForward found now c id inUse).map (fun r => (r.1.view, r.2)) =
      m.view.startForward found now c id inUse m.forwards.length := by
  rw [startForward, Leases.startForward, get_view]
  cases liveAt now found with
  | none => rfl
  | some l =>
    cases he : m.entry id with
    | none => rfl
    | some e =>
      obtain ⟨p, st⟩ := e
      simp only [Option.map_some]
      split
      · rfl
      · split
        · rfl
        · split
          · rfl
          · have hv := view_setSession hs he { st with forward := some m.forwards.length }
            simp only [Except.map, Except.ok.injEq, Prod.mk.injEq, and_true]
            exact hv

theorem view_teardown (m : Manager) (id : GoString) :
    ((m.teardown id).1.view, (m.teardown id).2) = m.view.teardown id := by
  rw [teardown, Leases.teardown, get_view]
  cases m.entry id with
  | none => rfl
  | some e => simp only [Option.map_some, view_erase]

theorem view_cancelForward (hs : m.Sound) (id : GoString) (c : Nat) :
    ((m.cancelForward id c).1.view, (m.cancelForward id c).2) = m.view.cancelForward id c := by
  rw [cancelForward, Leases.cancelForward, get_view]
  cases he : m.entry id with
  | none => rfl
  | some e =>
    obtain ⟨p, st⟩ := e
    simp only [Option.map_some]
    cases st.forward with
    | none => rfl
    | some n =>
      by_cases hc : st.conn = c
      · simp only [hc, if_true, view_setSession hs he]
      · simp only [hc, if_false]

theorem view_onConnClosed (m : Manager) (id : GoString) (c : Nat) :
    ((m.onConnClosed id c).1.view, (m.onConnClosed id c).2) = m.view.onConnClosed id c := by
  rw [onConnClosed, Leases.onConnClosed, get_view]
  cases m.entry id with
  | none => rfl
  | some e =>
    simp only [Option.map_some]
    split
    · rw [view_erase]
    · rfl

theorem Sound.of_sub (hs : m.Sound) (hlen : m.sessions.length ≤ m'.sessions.length)
    (hsub : ∀ (id : GoString) (p : Nat), m'.leases[id]? = some p → m.leases[id]? = some p) :
    m'.Sound :=
  ⟨fun id p hp => lt_of_lt_of_le (hs.valid id p (hsub id p hp)) hlen,
    fun id id' p hp hp' => hs.inj id id' p (hsub id p hp) (hsub id' p hp')⟩

theorem Sound.registerConn (hs : m.Sound) {r : Manager × List Handle}
    (h : m.registerConn found now c id = some r) : r.1.Sound := by
  rw [Manager.registerConn] at h
  split at h
  · cases h
  · cases h
    constructor
    · intro k p hp
      rw [GoMap.get_insert] at hp
      rw [List.length_append, List.length_singleton]
      split at hp
      · cases hp
        exact Nat.lt_succ_self _
      · exact Nat.lt_succ_of_lt (hs.valid k p hp)
    · intro k k' p hp hp'
      rw [GoMap.get_insert] at hp hp'
      split at hp <;> split at hp'
      · subst k k'
        rfl
      · cases hp
        exact absurd (hs.valid k' _ hp') (lt_irrefl _)
      · cases hp'
        exact absurd (hs.valid k _ hp) (lt_irrefl _)
      · exact hs.inj k k' p hp hp'

theorem Sound.erase (hs : m.Sound) (id : GoString) :
    ({ m with leases := m.leases.erase id } : Manager).Sound := by
  refine hs.of_sub le_rfl ?_
  intro k p hp
  rw [GoMap.get_erase] at hp
  split at hp
  · cases hp
  · exact hp

theorem Sound.setSession (hs : m.Sound) (p : Nat) (st : Session) : (m.setSession p st).Sound :=
  hs.of_sub (by simp [Manager.setSession]) fun _ _ hp => hp

theorem Sound.startForward (hs : m.Sound) {r : Manager × Lease}
    (h : m.startForward found now c id inUse = .ok r) : r.1.Sound := by
  obtain ⟨p, st, _, hr⟩ := startForward_eq_ok h
  rw [hr]
  exact (hs.setSession _ _).of_sub le_rfl fun _ _ hp => hp

theorem Sound.teardown (hs : m.Sound) (id : GoString) : (m.teardown id).1.Sound := by
  rw [Manager.teardown]
  split
  · exact hs
  · exact hs.erase id

theorem Sound.cancelForward (hs : m.Sound) (id : GoString) (c : Nat) :
    (m.cancelForward id c).1.Sound := by
  rw [Manager.cancelForward]
  split
  · exact hs
  · split
    · exact hs
    · split
      · exact hs.setSession _ _
      · exact hs

theorem Sound.onConnClosed (hs : m.Sound) (id : GoString) (c : Nat) :
    (m.onConnClosed id c).1.Sound := by
  rw [Manager.onConnClosed]
  split
  · exact hs
  · split
    · exact hs.erase id
    · exact hs

theorem Sound.of_frame (hs : m.Sound) (hl : m'.leases = m.leases)
    (hm : m'.sessions.map Session.toLeaseState = m.sessions.map Session.toLeaseState) :
    m'.Sound := by
  have hlen := congrArg List.length hm
  rw [List.length_map, List.length_map] at hlen
  refine hs.of_sub hlen.ge ?_
  intro id p hp
  rwa [hl] at hp

theorem Visits.frame {v : Visitor} {f : Forward} (h : Visits cap m i v st f move m')
    (hst : m.sessions[v.session]? = some st) : m'.leases = m.leases ∧
      m'.sessions.map Session.toLeaseState = m.sessions.map Session.toLeaseState := by
  cases h with
  | reserve => exact ⟨rfl, map_set_same hst rfl⟩
  | copiedIn => exact ⟨rfl, map_set_same hst rfl⟩
  | copiedOut => exact ⟨rfl, map_set_same hst rfl⟩
  | release => exact ⟨rfl, map_set_same hst rfl⟩
  | _ => exact ⟨rfl, rfl⟩

theorem Closes.frame {f : Forward} (h : Closes m k f m') :
    m'.leases = m.leases ∧ m'.sessions = m.sessions := by
  cases h <;> exact ⟨rfl, rfl⟩

end Manager

/-- What the operation does to the entries by value; `n` is the number of the next listener. -/
def Op.effect (op : Op) (m : Leases) (n : Nat) : Leases :=
  match op with
  | .registerConn found now c id => ((m.registerConn found now c id).map Prod.fst).getD m
  | .startForward found now c id inUse =>
    match m.startForward found now c id inUse n with
    | .error _ => m
    | .ok r => r.1
  | .teardown id => (m.teardown id).1
  | .cancelForward id c => (m.cancelForward id c).1
  | .onConnClosed id c => (m.onConnClosed id c).1
  | _ => m

namespace Manager

variable {m m' : Manager} {id : GoString} {p c n : Nat} {st st' : Session} {cap : Int} {op : Op}
  {found : Option Lease} {now : Time} {inUse : Int → Bool} {ops : List Op}

/-- Every step refines what its operation does to the entries by value. -/
theorem step_view (hs : m.Sound) (h : m.step cap op = some m') :
    m'.Sound ∧ m'.view = op.effect m.view m.forwards.length := by
  cases op with
  | registerConn found now c id =>
    have hv := view_registerConn hs found now c id
    simp only [step] at h
    simp only [Op.effect, ← hv]
    split at h
    · rename_i hn
      cases h
      rw [hn]
      exact ⟨hs, rfl⟩
    · rename_i r hr
      cases h
      rw [hr]
      exact ⟨hs.registerConn hr, rfl⟩
  | startForward found now c id inUse =>
    have hv := view_startForward hs found now c id inUse
    simp only [step] at h
    simp only [Op.effect, ← hv]
    split at h
    · rename_i e he
      cases h
      rw [he]
      exact ⟨hs, rfl⟩
    · rename_i r hr
      cases h
      rw [hr]
      exact ⟨hs.startForward hr, rfl⟩
  | teardown id =>
    cases h
    exact ⟨hs.teardown id, congrArg Prod.fst (view_teardown m id)⟩
  | cancelForward id c =>
    cases h
    exact ⟨hs.cancelForward id c, congrArg Prod.fst (view_cancelForward hs id c)⟩
  | onConnClosed id c =>
    cases h
    exact ⟨hs.onConnClosed id c, congrArg Prod.fst (view_onConnClosed m id c)⟩
  | accept k =>
    obtain ⟨f, _, _, rfl⟩ := accept_cases h
    exact ⟨hs.of_sub le_rfl fun _ _ hp => hp, rfl⟩
  | visit i move =>
    obtain ⟨v, st, f, _, hst, _, hvis⟩ := handleVisitor_cases h
    obtain ⟨hl, hm⟩ := hvis.frame hst
    exact ⟨hs.of_frame hl hm, view_congr hl hm⟩
  | close k j =>
    obtain ⟨f, _, hcl⟩ := close_cases h
    obtain ⟨hl, hss⟩ := hcl.frame
    have hm := congrArg (List.map Session.toLeaseState) hss
    exact ⟨hs.of_frame hl hm, view_congr hl hm⟩

theorem Run.sound (h : Run cap ops m) : m.Sound := by
  induction h with
  | nil =>
    have hno : ∀ (id : GoString) (p : Nat), empty.leases[id]? = some p → False := by
      intro id p hp
      rw [empty, GoMap.get_empty] at hp
      cases hp
    exact ⟨fun id p hp => (hno id p hp).elim, fun id _ p hp => (hno id p hp).elim⟩
  | snoc _ hst ih => exact (step_view ih hst).1

end Manager

end HyruleProxy
