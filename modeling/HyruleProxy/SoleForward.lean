import HyruleProxy.Channels

namespace HyruleProxy
set_option autoImplicit true

section Holding

/-- Whether the packet is a turn that grants a forward to the connection. -/
def Packet.grants (c : Nat) : Packet → Bool
  | .took c' _ turn => decide (c' = c) && turn.grant.isSome
  | _ => false

theorem Packet.grants_iff {x : Packet} :
    x.grants c = true ↔ ∃ req turn, x = .took c req turn ∧ turn.grant.isSome := by
  cases x with
  | took c' req turn =>
    simp only [grants, Bool.and_eq_true, decide_eq_true_eq, Packet.took.injEq]
    constructor
    · rintro ⟨rfl, hg⟩
      exact ⟨req, turn, ⟨rfl, rfl, rfl⟩, hg⟩
    · rintro ⟨_, _, ⟨rfl, rfl, rfl⟩, hg⟩
      exact ⟨rfl, hg⟩
  | _ => simp [grants]

/-- Whether it is a turn on a request of the connection to cancel its forward. -/
def Packet.cancels (c : Nat) : Packet → Bool
  | .took c' req _ => decide (c' = c ∧ req.type = lit "cancel-tcpip-forward")
  | _ => false

/-- Whether the connection was granted a forward and has not asked to cancel it since. -/
def holding (c : Nat) (log : List Packet) : Bool :=
  log.foldl (fun held x => x.grants c || (held && !x.cancels c)) false

theorem holding_snoc (c : Nat) (log : List Packet) (x : Packet) :
    holding c (log ++ [x]) = (x.grants c || (holding c log && !x.cancels c)) :=
  List.foldl_append ..

theorem holding_of_grants {pre mid : List Packet} {x : Packet} (hx : x.grants c = true)
    (hmid : ∀ y ∈ mid, y.cancels c = false) : holding c (pre ++ x :: mid) = true := by
  induction mid using List.reverseRecOn with
  | nil => rw [holding_snoc, hx, Bool.true_or]
  | append_singleton mid y ih =>
    have hy := hmid y (List.mem_append_right _ List.mem_cons_self)
    have hheld := ih fun z hz => hmid z (List.mem_append_left _ hz)
    rw [← List.cons_append, ← List.append_assoc, holding_snoc, hheld, hy, Bool.not_false,
      Bool.and_true, Bool.or_true]

end Holding

namespace Manager

variable {m m' : Manager} {id : GoString} {p c c' : Nat} {st st' : Session}

/-- Whether a session of the connection has a forward. -/
def Forwarding (m : Manager) (c : Nat) : Prop := ∃ st ∈ m.states, st.conn = c ∧ st.forward.isSome

theorem Forwarding.mono (h : m.Forwarding c) (hs : m.states <+: m'.states) : m'.Forwarding c := by
  obtain ⟨st, hm, hst⟩ := h
  exact ⟨st, hs.subset hm, hst⟩

theorem forwarding_iff : m.Forwarding c ↔
    ∃ (q : Nat) (t : Session), m.sessions[q]? = some t ∧ t.conn = c ∧ t.forward.isSome := by
  constructor
  · rintro ⟨_, hm, hc, hf⟩
    obtain ⟨t, ht, rfl⟩ := List.mem_map.1 hm
    obtain ⟨q, hq⟩ := List.mem_iff_getElem?.1 ht
    exact ⟨q, t, hq, hc, hf⟩
  · rintro ⟨q, t, hq, hc, hf⟩
    exact ⟨_, List.mem_map_of_mem (List.mem_of_getElem? hq), hc, hf⟩

theorem Forwarding.setSession (h : m.Forwarding c) (hst : m.sessions[p]? = some st)
    (hc : st'.conn = st.conn) (hf : st.conn = c → st'.forward.isSome) :
    (m.setSession p st').Forwarding c := by
  obtain ⟨q, t, hq, htc, htf⟩ := forwarding_iff.1 h
  rw [forwarding_iff]
  by_cases hp : p = q
  · subst hp
    rw [hst] at hq
    cases hq
    exact ⟨p, st', by rw [Manager.setSession, getElem?_set_some hst, if_pos rfl], hc.trans htc,
      hf htc⟩
  · exact ⟨q, t, by rw [Manager.setSession, getElem?_set_some hst, if_neg hp, hq], htc, htf⟩

theorem Forwarding.cancelForward (h : m.Forwarding c) (hne : c' ≠ c) (id : GoString) :
    (m.cancelForward id c').1.Forwarding c := by
  rw [Manager.cancelForward]
  split
  · exact h
  · rename_i p st he
    split
    · exact h
    · split
      · rename_i hc
        exact h.setSession (entry_eq_some.1 he).2 rfl fun hst => absurd (hc.symm.trans hst) hne
      · exact h

theorem startForward_idle {r : Manager × Lease}
    (h : m.startForward found now c id inUse = .ok r) : ∃ p st, m.sessions[p]? = some st ∧
      st.conn = c ∧ st.forward = none ∧
      r.1.sessions = (m.setSession p { st with forward := some m.forwards.length }).sessions := by
  rw [startForward] at h
  split at h
  · cases h
  · split at h
    · cases h
    · rename_i p st he
      split at h
      · cases h
      · rename_i hc
        split at h
        · cases h
        · rename_i hf
          split at h
          · cases h
          · cases h
            exact ⟨p, st, (entry_eq_some.1 he).2, not_not.1 hc, not_not.1 hf, rfl⟩

theorem Forwarding.startForward {r : Manager × Lease}
    (h : m.startForward found now c' id inUse = .ok r) (hc : c' = c ∨ m.Forwarding c) :
    r.1.Forwarding c := by
  obtain ⟨p, st, hst, hconn, _, hs⟩ := startForward_idle h
  have hstates : r.1.states =
      (m.setSession p { st with forward := some m.forwards.length }).states :=
    congrArg (List.map Session.toLeaseState) hs
  rw [Forwarding, hstates]
  rcases hc with rfl | hc
  · refine forwarding_iff.2 ⟨p, { st with forward := some m.forwards.length }, ?_, hconn, rfl⟩
    rw [Manager.setSession, getElem?_set_some hst, if_pos rfl]
  · exact hc.setSession hst rfl fun _ => rfl

/-- A connection with a single session is not granted a forward while it has one. -/
theorem not_forwarding_of_startForward {r : Manager × Lease} (hone : m.conns.count c ≤ 1)
    (h : m.startForward found now c id inUse = .ok r) : ¬m.Forwarding c := by
  intro hf
  obtain ⟨p, st, hst, hconn, hnone, _⟩ := startForward_idle h
  obtain ⟨q, t, hq, htc, htf⟩ := forwarding_iff.1 hf
  have hpc : m.conns[p]? = some c := by rw [conns, List.getElem?_map, hst, Option.map_some, hconn]
  have hqc : m.conns[q]? = some c := by rw [conns, List.getElem?_map, hq, Option.map_some, htc]
  obtain ⟨hp, hpe⟩ := List.getElem?_eq_some_iff.1 hpc
  obtain ⟨hq', hqe⟩ := List.getElem?_eq_some_iff.1 hqc
  by_cases hpq : p = q
  · subst hpq
    rw [hst] at hq
    cases hq
    rw [hnone] at htf
    cases htf
  · have hdup : m.conns.Duplicate c := by
      rw [List.duplicate_iff_exists_distinct_get]
      rcases Nat.lt_or_gt_of_ne hpq with hlt | hlt
      · exact ⟨⟨p, hp⟩, ⟨q, hq'⟩, hlt, hpe.symm, hqe.symm⟩
      · exact ⟨⟨q, hq'⟩, ⟨p, hp⟩, hlt, hqe.symm, hpe.symm⟩
    have htwo := List.duplicate_iff_two_le_count.1 hdup
    omega

end Manager

namespace Intake

variable {code : Marshalling} {s s' : Intake} {cap : Int} {c : Nat}

/-- A connection that holds a forward by the log has one in the manager, and is granted one only
when it holds none. -/
structure Sole (s : Intake) (c : Nat) : Prop where
  held : holding c s.log = true → s.manager.Forwarding c
  granted : ∀ pre x post, s.log = pre ++ x :: post → x.grants c = true → holding c pre = false

theorem Sole.snoc (h : s.Sole c) (x : Option Packet) (hl : s'.log = s.log ++ x.toList)
    (hx : ∀ y ∈ x, y.grants c = false)
    (hk : (∀ y ∈ x, y.cancels c = false) → s.manager.Forwarding c → s'.manager.Forwarding c) :
    s'.Sole c := by
  cases x with
  | none =>
    rw [Option.toList_none, List.append_nil] at hl
    exact ⟨fun hh => hk (fun _ hy => by cases hy) (h.held (hl ▸ hh)), hl ▸ h.granted⟩
  | some y =>
    have hy := hx y rfl
    refine ⟨?_, ?_⟩
    · intro hh
      rw [hl, Option.toList_some, holding_snoc, hy, Bool.false_or, Bool.and_eq_true,
        Bool.not_eq_true'] at hh
      exact hk (fun z hz => by cases hz; exact hh.2) (h.held hh.1)
    · intro pre z post hlog hz
      rw [hl] at hlog
      rcases snoc_eq_split hlog with ⟨_, rfl, _⟩ | ⟨post', _, hl'⟩
      · rw [hy] at hz
        cases hz
      · exact h.granted pre z post' hl' hz

theorem Sole.grant (h : s.Sole c) (hl : s'.log = s.log ++ [x])
    (hnot : ¬s.manager.Forwarding c) (hf : s'.manager.Forwarding c) : s'.Sole c := by
  refine ⟨fun _ => hf, ?_⟩
  intro pre z post hlog hz
  rw [hl] at hlog
  rcases snoc_eq_split hlog with ⟨rfl, _, _⟩ | ⟨post', _, hl'⟩
  · by_contra hheld
    exact hnot (h.held (eq_true_of_ne_false hheld))
  · exact h.granted pre z post' hl' hz

theorem Sole.request {id : GoString} (h : s.Sole c) (hone : s.manager.conns.count c ≤ 1)
    (r : Manager × Turn)
    (hr : s.manager.handleGlobalRequest code found now c' id inUse req = r)
    (hm : s'.manager = r.1) (hl : s'.log = s.log ++ [.took c' req r.2]) : s'.Sole c := by
  have hcases := s.manager.handleGlobalRequest_cases code found now c' id inUse req
  rw [hr] at hcases
  rcases hcases with ⟨hkept, hg⟩ | ⟨q, l, _, _, hst, hg⟩
  · apply h.snoc (some (.took c' req r.2)) hl
    · intro y hy
      cases hy
      rw [Packet.grants, hg, Option.isSome_none, Bool.and_false]
    · intro hcancel hf
      rw [hm]
      rcases hkept with hsame | ⟨htype, hsame⟩
      · rwa [hsame]
      · have hne : c' ≠ c := by
          rintro rfl
          have hno := hcancel _ rfl
          simp [Packet.cancels, htype] at hno
        rw [hsame]
        exact hf.cancelForward hne id
  · by_cases hc : c' = c
    · subst hc
      have hf := Manager.Forwarding.startForward hst (.inl rfl)
      exact h.grant hl (Manager.not_forwarding_of_startForward hone hst) (hm ▸ hf)
    · apply h.snoc (some (.took c' req r.2)) hl
      · intro y hy
        cases hy
        simp [Packet.grants, hc]
      · intro _ hf
        rw [hm]
        exact Manager.Forwarding.startForward hst (.inr hf)

theorem Sole.step (h : s.Sole c) (hone : s.manager.conns.count c ≤ 1)
    (hs : s.step code cap e = some s') : s'.Sole c := by
  have hnil : s.log = s.log ++ (none : Option Packet).toList := (List.append_nil s.log).symm
  have hno : ∀ y ∈ (none : Option Packet), y.grants c = false := nofun
  cases step_cases hs with
  | serve => exact h.snoc none hnil hno fun _ hf => hf
  | request c' id found now inUse req r _ hr => exact h.request hone r hr rfl rfl
  | reply c' id reply gone =>
    refine h.snoc (reply.map (Packet.replied c')) rfl ?_ fun _ hf => hf
    intro y hy
    obtain ⟨_, _, rfl⟩ := Option.map_eq_some_iff.1 hy
    rfl
  | hangup => exact h.snoc none hnil hno fun _ hf => hf
  | accept k peer m hm =>
    obtain ⟨f, _, _, rfl⟩ := Manager.accept_cases hm
    exact h.snoc none hnil hno fun _ hf => hf
  | visit i move m _ hm =>
    obtain ⟨v, st, f, _, hst, _, hvis⟩ := Manager.handleVisitor_cases hm
    refine h.snoc (s.sends code i move) rfl ?_ fun _ hf => hf.mono ?_
    · intro y hy
      cases move with
      | openChannel =>
        obtain ⟨_, _, rfl⟩ := Option.map_eq_some_iff.1 hy
        rfl
      | _ => cases hy
    · rw [Manager.states, Manager.states, (hvis.frame hst).2]
  | manage op m hb hm =>
    exact h.snoc none hnil hno fun _ hf => hf.mono (Manager.background_frame hb hm).1

theorem conns_step (hs : s.step code cap e = some s') :
    s.manager.conns <+: s'.manager.conns := by
  cases step_cases hs with
  | serve => exact List.prefix_rfl
  | request c' id found now inUse req r _ hr =>
    have hcases := s.manager.handleGlobalRequest_cases code found now c' id inUse req
    rw [hr] at hcases
    rcases hcases with ⟨hm | ⟨_, hm⟩, _⟩ | ⟨q, l, _, _, hst, _⟩
    · rw [hm]
    · rw [hm]
      exact (s.manager.cancelForward_keeps id c').1.conns
    · obtain ⟨_, _, hc, _⟩ := Manager.startForward_conn hst
      exact hc ▸ List.prefix_rfl
  | reply => exact List.prefix_rfl
  | hangup => exact List.prefix_rfl
  | accept k peer m hm =>
    obtain ⟨_, _, hc, _⟩ := Manager.accept_homes hm
    exact hc ▸ List.prefix_rfl
  | visit i move m _ hm =>
    obtain ⟨v, st, f, hv, hst, hf, hvis⟩ := Manager.handleVisitor_cases hm
    exact (hvis.keeps hv hst hf).conns
  | manage op m hb hm =>
    obtain ⟨hst, hh, hv⟩ := Manager.background_frame hb hm
    exact (Manager.Keeps.of_states hst hh hv).conns

theorem sole_of_run (h : runFrom (step code cap) empty es = some s)
    (hone : s.manager.conns.count c ≤ 1) : s.Sole c := by
  -- Sessions are only added, so a connection that has one at the end had at most one before.
  refine runFrom_invariant (P := fun s => s.manager.conns.count c ≤ 1 → s.Sole c) ?_ ?_ h hone
  · intro s e s' hi hs hone
    have hle := (conns_step hs).sublist.count_le c
    exact (hi (hle.trans hone)).step (hle.trans hone) hs
  · intro _
    refine ⟨nofun, ?_⟩
    intro pre _ _ he
    cases pre <;> cases he

/-- A connection that has registered at most once is granted a second forward only after it has
asked to cancel since the first grant, whatever the other connections, the visitors and the
revocations do in between. -/
theorem granted_again_after_cancel {pre mid post : List Packet} {req req' : GlobalRequest}
    {turn turn' : Turn} (h : runFrom (step code cap) empty es = some s)
    (hone : s.manager.conns.count c ≤ 1)
    (hlog : s.log = pre ++ .took c req turn :: mid ++ .took c req' turn' :: post)
    (hg : turn.grant.isSome) (hg' : turn'.grant.isSome) :
    ∃ req₁ turn₁, .took c req₁ turn₁ ∈ mid ∧ req₁.type = lit "cancel-tcpip-forward" := by
  have hfree := (sole_of_run h hone).granted _ _ _ hlog (Packet.grants_iff.2 ⟨_, _, rfl, hg'⟩)
  by_contra hnone
  have hheld : holding c (pre ++ .took c req turn :: mid) = true := by
    apply holding_of_grants (Packet.grants_iff.2 ⟨_, _, rfl, hg⟩)
    intro y hy
    by_contra hcancel
    cases y with
    | took c₁ req₁ turn₁ =>
      obtain ⟨rfl, ht⟩ := of_decide_eq_true (eq_true_of_ne_false hcancel)
      exact hnone ⟨req₁, turn₁, hy, ht⟩
    | replied => exact hcancel rfl
    | opened => exact hcancel rfl
  rw [hheld] at hfree
  cases hfree

/-- A client asks for a forward, asks again in vain, cancels it and asks once more. -/
def sampleRegrant : List IntakeEvent :=
  let ask := ⟨lit "tcpip-forward", true, rfc4254.forwardRequest.marshal ⟨[], 0⟩⟩
  [.manage (.registerConn (some sampleGuest) 1 0 (lit "a")), .serve 0 (lit "a"),
    .request 0 (some sampleGuest) 1 (fun _ => false) ask, .reply 0,
    .request 0 (some sampleGuest) 2 (fun _ => false) ask, .reply 0,
    .request 0 none 3 (fun _ => false) ⟨lit "cancel-tcpip-forward", true, []⟩, .reply 0,
    .request 0 (some sampleGuest) 4 (fun _ => false) ask]

theorem granted_again_after_cancel_sample : ∃ (s : Intake) (pre mid : List Packet)
    (req req' req₁ : GlobalRequest) (turn turn' turn₁ : Turn),
    runFrom (step rfc4254 4) empty sampleRegrant = some s ∧
    s.log = pre ++ .took 0 req turn :: mid ++ [.took 0 req' turn'] ∧ turn.grant.isSome ∧
    turn'.grant.isSome ∧ .took 0 req₁ turn₁ ∈ mid ∧
    req₁.type = lit "cancel-tcpip-forward" := by
  have hrun : ((runFrom (step rfc4254 4) empty sampleRegrant).any fun s =>
      decide (s.manager.conns.count 0 ≤ 1) && (s.log.head?.any (Packet.grants 0) &&
        s.log.tail.getLast?.any (Packet.grants 0))) = true := by
    decide
  obtain ⟨s, hs, hp⟩ := (Option.any_eq_true _ _).1 hrun
  obtain ⟨hone, hp⟩ := Bool.and_eq_true_iff.1 hp
  obtain ⟨hhead, hlast⟩ := Bool.and_eq_true_iff.1 hp
  obtain ⟨x, hx, hgx⟩ := (Option.any_eq_true _ _).1 hhead
  obtain ⟨rest, hl⟩ := List.head?_eq_some_iff.1 hx
  rw [hl, List.tail_cons] at hlast
  obtain ⟨y, hy, hgy⟩ := (Option.any_eq_true _ _).1 hlast
  obtain ⟨mid, rfl⟩ := List.getLast?_eq_some_iff.1 hy
  obtain ⟨req, turn, rfl, hg⟩ := Packet.grants_iff.1 hgx
  obtain ⟨req', turn', rfl, hg'⟩ := Packet.grants_iff.1 hgy
  have hlog : s.log = [] ++ .took 0 req turn :: mid ++ [.took 0 req' turn'] := hl
  obtain ⟨req₁, turn₁, hm, ht⟩ :=
    granted_again_after_cancel hs (of_decide_eq_true hone) hlog hg hg'
  exact ⟨s, [], mid, req, req', req₁, turn, turn', turn₁, hs, hlog, hg, hg', hm, ht⟩

end Intake

end HyruleProxy
