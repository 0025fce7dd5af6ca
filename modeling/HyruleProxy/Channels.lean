import HyruleProxy.Intake
import HyruleProxy.ForwardClose

namespace HyruleProxy
set_option autoImplicit true

/-- Whether a run at this stage has not passed the allowlist check, or is over. -/
def Stage.idle : Stage → Bool
  | .accepted => true
  | .closingSocket => true
  | .returned => true
  | _ => false

theorem Stage.idle_spec {stage : Stage} (h : stage.idle = true) :
    stage.reserved = false ∧ stage.hasChannel = false := by
  cases stage <;> first | exact ⟨rfl, rfl⟩ | cases h

namespace Manager

/-- The sessions without their counters, their connections, the sessions of the forwards, and the
sessions and forwards of the visitors. -/
def states (m : Manager) : List LeaseState := m.sessions.map Session.toLeaseState

def conns (m : Manager) : List Nat := m.sessions.map fun st => st.conn

def homes (m : Manager) : List Nat := m.forwards.map Forward.session

def routes (m : Manager) : List (Nat × Nat) := m.visitors.map fun v => (v.session, v.forward)

/-- Nothing is added but sessions, and nothing is moved. -/
structure Keeps (m m' : Manager) : Prop where
  conns : m.conns <+: m'.conns
  homes : m'.homes = m.homes
  routes : m'.routes = m.routes

variable {m m' : Manager} {cap : Int} {op : Op} {i k c : Nat} {v : Visitor} {st : Session}
  {f : Forward} {move : Move} {id : GoString}

theorem Keeps.refl (m : Manager) : m.Keeps m := ⟨List.prefix_rfl, rfl, rfl⟩

theorem Keeps.of_eq (hc : m'.conns = m.conns) (hh : m'.homes = m.homes)
    (hr : m'.routes = m.routes) : m.Keeps m' :=
  ⟨hc ▸ List.prefix_rfl, hh, hr⟩

theorem Keeps.of_states (hs : m.states <+: m'.states) (hh : m'.homes = m.homes)
    (hv : m'.visitors = m.visitors) : m.Keeps m' := by
  have hc := hs.map LeaseState.conn
  rw [states, states, List.map_map, List.map_map] at hc
  exact ⟨hc, hh, by rw [Manager.routes, Manager.routes, hv]⟩

theorem Visits.keeps (h : Visits cap m i v st f move m') (hv : m.visitors[i]? = some v)
    (hst : m.sessions[v.session]? = some st) (hf : m.forwards[v.forward]? = some f) :
    m.Keeps m' := by
  cases h with
  | track => exact .of_eq rfl (map_set_same hf rfl) (map_set_same hv rfl)
  | record => exact .of_eq rfl (map_set_same hf rfl) (map_set_same hv rfl)
  | untrack => exact .of_eq rfl (map_set_same hf rfl) (map_set_same hv rfl)
  | reserve => exact .of_eq (map_set_same hst rfl) rfl (map_set_same hv rfl)
  | copiedIn => exact .of_eq (map_set_same hst rfl) rfl (map_set_same hv rfl)
  | copiedOut => exact .of_eq (map_set_same hst rfl) rfl (map_set_same hv rfl)
  | release => exact .of_eq (map_set_same hst rfl) rfl (map_set_same hv rfl)
  | _ => exact .of_eq rfl rfl (map_set_same hv rfl)

theorem cancelForward_keeps (m : Manager) (id : GoString) (c : Nat) :
    m.Keeps (m.cancelForward id c).1 ∧ (m.cancelForward id c).1.visitors = m.visitors := by
  rw [cancelForward]
  split
  · exact ⟨.refl m, rfl⟩
  · rename_i p st he
    split
    · exact ⟨.refl m, rfl⟩
    · split
      · exact ⟨.of_eq (map_set_same (entry_eq_some.1 he).2 rfl) rfl rfl, rfl⟩
      · exact ⟨.refl m, rfl⟩

theorem background_frame (hb : op.background = true) (h : m.step cap op = some m') :
    m.states <+: m'.states ∧ m'.homes = m.homes ∧ m'.visitors = m.visitors := by
  have hsame : m.states <+: m.states := List.prefix_rfl
  cases op with
  | registerConn found now c id =>
    simp only [step] at h
    split at h
    · cases h
      exact ⟨hsame, rfl, rfl⟩
    · rename_i r hr
      cases h
      rw [registerConn] at hr
      split at hr
      · cases hr
      · cases hr
        refine ⟨?_, rfl, rfl⟩
        rw [states, states, List.map_append]
        exact List.prefix_append _ _
  | teardown id =>
    simp only [step, teardown] at h
    split at h <;> cases h <;> exact ⟨hsame, rfl, rfl⟩
  | onConnClosed id c =>
    simp only [step, onConnClosed] at h
    split at h
    · cases h
      exact ⟨hsame, rfl, rfl⟩
    · split at h <;> cases h <;> exact ⟨hsame, rfl, rfl⟩
  | close k j =>
    obtain ⟨f, hf, hcl⟩ := close_cases h
    cases hcl <;> exact ⟨hsame, map_set_same hf rfl, rfl⟩
  | startForward => cases hb
  | cancelForward => cases hb
  | accept => cases hb
  | visit => cases hb

theorem startForward_conn {r : Manager × Lease} {inUse : Int → Bool}
    (h : m.startForward found now c id inUse = .ok r) : ∃ p, m.conns[p]? = some c ∧
      r.1.conns = m.conns ∧ r.1.homes = m.homes ++ [p] ∧ r.1.routes = m.routes := by
  rw [startForward] at h
  split at h
  · cases h
  · split at h
    · cases h
    · rename_i p st he
      have hst := (entry_eq_some.1 he).2
      split at h
      · cases h
      · rename_i hc
        split at h
        · cases h
        · split at h
          · cases h
          · cases h
            refine ⟨p, ?_, map_set_same hst rfl, ?_, rfl⟩
            · rw [conns, List.getElem?_map, hst, Option.map_some, not_not.1 hc]
            · rw [homes, List.map_append]
              rfl

theorem accept_homes (h : m.accept k = some m') : ∃ p, m.homes[k]? = some p ∧
    m'.conns = m.conns ∧ m'.homes = m.homes ∧ m'.routes = m.routes ++ [(p, k)] := by
  obtain ⟨f, hf, _, rfl⟩ := accept_cases h
  refine ⟨f.session, ?_, rfl, rfl, ?_⟩
  · rw [homes, List.getElem?_map, hf, Option.map_some]
  · rw [routes, List.map_append]
    rfl

end Manager

namespace Intake

variable {code : Marshalling} {s s' : Intake} {cap : Int} {e : IntakeEvent} {m : Manager}

/-- Why a channel was opened: the visitor came over a forward that its connection had asked for
before and was granted, and passed the allowlist of its lease. -/
structure Justifies (code : Marshalling) (s : Intake) (before : List Packet) (c i : Nat)
    (payload : GoString) (req : GlobalRequest) (turn : Turn) (g : Grant) (p : Peer) : Prop where
  took : .took c req turn ∈ before
  grant : turn.grant = some g
  route : s.route i = some (c, g, p)
  admits : g.restriction.admits p.remoteAddr = true
  payload : payload = g.payload code p

/-- The invariant of the intake. A visitor that the allowlist of its forward bars never gets
past the check. -/
structure Inv (code : Marshalling) (s : Intake) : Prop where
  granted : s.grants.length = s.manager.homes.length
  owner : ∀ (k : Nat) (g : Grant), s.grants[k]? = some g →
    ∃ p, s.manager.homes[k]? = some p ∧ s.manager.conns[p]? = some g.conn
  asked : ∀ g ∈ s.grants, ∃ req turn, .took g.conn req turn ∈ s.log ∧ turn.grant = some g
  peered : s.peers.length = s.manager.routes.length
  routed : ∀ r ∈ s.manager.routes, s.manager.homes[r.2]? = some r.1
  screened : ∀ (i : Nat) (v : Visitor) (c : Nat) (g : Grant) (p : Peer),
    s.manager.visitors[i]? = some v → s.route i = some (c, g, p) →
    g.restriction.admits p.remoteAddr = false → v.stage.idle = true
  opened : ∀ pre c i payload post, s.log = pre ++ .opened c i payload :: post →
    ∃ req turn g p, s.Justifies code pre c i payload req turn g p

theorem route_eq_some : s.route i = some (c, g, p) ↔ ∃ q k, s.manager.routes[i]? = some (q, k) ∧
    s.manager.conns[q]? = some c ∧ s.grants[k]? = some g ∧ s.peers[i]? = some p := by
  simp only [route, Manager.routes, Manager.conns, List.getElem?_map, Option.bind_eq_bind,
    Option.bind_eq_some_iff, Option.map_eq_some_iff, Option.pure_def, Option.some.injEq,
    Prod.mk.injEq]
  constructor
  · rintro ⟨v, hv, st, hst, g, hg, p, hp, rfl, rfl, rfl⟩
    exact ⟨v.session, v.forward, ⟨v, hv, rfl, rfl⟩, ⟨st, hst, rfl⟩, hg, hp⟩
  · rintro ⟨q, k, ⟨v, hv, rfl, rfl⟩, ⟨st, hst, rfl⟩, hg, hp⟩
    exact ⟨v, hv, st, hst, g, hg, p, hp, rfl, rfl, rfl⟩

/-- What a step leaves in place. -/
structure Grows (s s' : Intake) : Prop where
  conns : s.manager.conns <+: s'.manager.conns
  homes : s.manager.homes <+: s'.manager.homes
  routes : s.manager.routes <+: s'.manager.routes
  grants : s.grants <+: s'.grants
  peers : s.peers <+: s'.peers

theorem Grows.route (h : s.Grows s') (hr : s.route i = some (c, g, p)) :
    s'.route i = some (c, g, p) := by
  obtain ⟨q, k, hq, hc, hg, hp⟩ := route_eq_some.1 hr
  exact route_eq_some.2 ⟨q, k, getElem?_of_prefix h.routes hq, getElem?_of_prefix h.conns hc,
    getElem?_of_prefix h.grants hg, getElem?_of_prefix h.peers hp⟩

theorem Justifies.mono (h : s.Justifies code pre c i bytes req turn g p) (hg : s.Grows s') :
    s'.Justifies code pre c i bytes req turn g p :=
  ⟨h.took, h.grant, hg.route h.route, h.admits, h.payload⟩

theorem Inv.route_some (h : s.Inv code) {i : Nat} (hr : s.manager.routes[i]? = some r) :
    ∃ c g p, s.route i = some (c, g, p) := by
  have hhome := h.routed _ (List.mem_of_getElem? hr)
  have hk := (List.getElem?_eq_some_iff.1 hhome).1
  rw [← h.granted] at hk
  have hgk := List.getElem?_eq_getElem hk
  obtain ⟨q, hq, hc⟩ := h.owner _ _ hgk
  have hi := (List.getElem?_eq_some_iff.1 hr).1
  rw [← h.peered] at hi
  rw [hhome] at hq
  cases hq
  exact ⟨_, _, _, route_eq_some.2 ⟨_, _, hr, hc, hgk, List.getElem?_eq_getElem hi⟩⟩

/-- The connection of a visitor is the one that asked for its forward. -/
theorem Inv.route_conn (h : s.Inv code) (hr : s.route i = some (c, g, p)) :
    g ∈ s.grants ∧ g.conn = c := by
  obtain ⟨q, k, hq, hc, hg, _⟩ := route_eq_some.1 hr
  obtain ⟨q', hq', hc'⟩ := h.owner k g hg
  have hhome := h.routed _ (List.mem_of_getElem? hq)
  rw [hq'] at hhome
  cases hhome
  rw [hc] at hc'
  cases hc'
  exact ⟨List.mem_of_getElem? hg, rfl⟩

theorem Inv.keeps (h : s.Inv code) (hk : s.manager.Keeps m)
    (hidle : ∀ (i : Nat) (v' : Visitor) (c : Nat) (g : Grant) (p : Peer),
      m.visitors[i]? = some v' → s.route i = some (c, g, p) →
      g.restriction.admits p.remoteAddr = false → v'.stage.idle = true)
    (loops : GoMap Nat RequestLoop) (x : Option Packet)
    (hx : ∀ c i payload, x = some (.opened c i payload) →
      ∃ req turn g p, s.Justifies code s.log c i payload req turn g p) :
    ({ s with manager := m, loops := loops, log := s.log ++ x.toList } : Intake).Inv code := by
  have hgrows : s.Grows { s with manager := m, loops := loops, log := s.log ++ x.toList } :=
    ⟨hk.conns, hk.homes ▸ List.prefix_rfl, hk.routes ▸ List.prefix_rfl, List.prefix_rfl,
      List.prefix_rfl⟩
  refine ⟨?_, ?_, ?_, ?_, ?_, ?_, ?_⟩
  · rw [h.granted, hk.homes]
  · intro k g hg
    obtain ⟨q, hq, hc⟩ := h.owner k g hg
    exact ⟨q, hk.homes ▸ hq, getElem?_of_prefix hk.conns hc⟩
  · intro g hg
    obtain ⟨req, turn, ht, hgr⟩ := h.asked g hg
    exact ⟨req, turn, List.mem_append_left _ ht, hgr⟩
  · rw [h.peered, hk.routes]
  · intro r hr
    rw [hk.routes] at hr
    rw [hk.homes]
    exact h.routed r hr
  · intro i v c g p hv hr ha
    obtain ⟨q, k, hq, _⟩ := route_eq_some.1 hr
    obtain ⟨c', g', p', hr'⟩ := h.route_some (hk.routes ▸ hq)
    rw [hgrows.route hr'] at hr
    cases hr
    exact hidle i v c g p hv hr' ha
  · intro pre c i payload post hlog
    have hold : s.log = pre ∧ x = some (.opened c i payload) ∨
        ∃ post', s.log = pre ++ .opened c i payload :: post' := by
      cases x with
      | none => exact .inr ⟨post, by simpa using hlog⟩
      | some x =>
        rcases snoc_eq_split hlog with ⟨hl, rfl, _⟩ | ⟨post', _, hl⟩
        · exact .inl ⟨hl, rfl⟩
        · exact .inr ⟨post', hl⟩
    rcases hold with ⟨rfl, hxe⟩ | ⟨post', hl⟩
    · obtain ⟨req, turn, g, p, hj⟩ := hx c i payload hxe
      exact ⟨req, turn, g, p, hj.mono hgrows⟩
    · obtain ⟨req, turn, g, p, hj⟩ := h.opened pre c i payload post' hl
      exact ⟨req, turn, g, p, hj.mono hgrows⟩

theorem Inv.idle (h : s.Inv code) (hv : m.visitors = s.manager.visitors) (i : Nat) (v : Visitor)
    (c : Nat) (g : Grant) (p : Peer) (hi : m.visitors[i]? = some v)
    (hr : s.route i = some (c, g, p))
    (ha : g.restriction.admits p.remoteAddr = false) : v.stage.idle = true :=
  h.screened i v c g p (hv ▸ hi) hr ha

theorem Inv.start (h : s.Inv code) {q : Nat} (hq : s.manager.conns[q]? = some g.conn)
    (hc : m.conns = s.manager.conns) (hh : m.homes = s.manager.homes ++ [q])
    (hv : m.visitors = s.manager.visitors) (loops : GoMap Nat RequestLoop)
    (hg : turn.grant = some g) :
    ({ s with manager := m, grants := s.grants ++ [g], loops := loops,
              log := s.log ++ [.took g.conn req turn] } : Intake).Inv code := by
  have hroutes : m.routes = s.manager.routes := by rw [Manager.routes, hv, Manager.routes]
  have hgrows : s.Grows { s with
      manager := m
      grants := s.grants ++ [g]
      loops := loops
      log := s.log ++ [.took g.conn req turn] } :=
    ⟨hc ▸ List.prefix_rfl, hh ▸ List.prefix_append _ _, hroutes ▸ List.prefix_rfl,
      List.prefix_append _ _, List.prefix_rfl⟩
  refine ⟨?_, ?_, ?_, ?_, ?_, ?_, ?_⟩
  · rw [hh, List.length_append, List.length_append, h.granted]
    rfl
  · intro k g' hg'
    rw [hc, hh]
    rw [getElem?_push] at hg'
    split at hg'
    · rename_i hk
      cases hg'
      refine ⟨q, ?_, hq⟩
      rw [getElem?_push, if_pos (hk.trans h.granted)]
    · obtain ⟨q', hq', hc'⟩ := h.owner k g' hg'
      exact ⟨q', getElem?_of_prefix (List.prefix_append _ _) hq', hc'⟩
  · intro g' hg'
    rcases List.mem_append.1 hg' with hg' | hg'
    · obtain ⟨req', turn', ht, hgr⟩ := h.asked g' hg'
      exact ⟨req', turn', List.mem_append_left _ ht, hgr⟩
    · rw [List.mem_singleton] at hg'
      subst hg'
      exact ⟨req, turn, List.mem_append_right _ List.mem_cons_self, hg⟩
  · rw [h.peered, hroutes]
  · intro r hr
    rw [hroutes] at hr
    exact hh ▸ getElem?_of_prefix (List.prefix_append _ _) (h.routed r hr)
  · intro i v c g' p hi hr ha
    obtain ⟨_, _, hq', _⟩ := route_eq_some.1 hr
    obtain ⟨c', g₀, p', hr'⟩ := h.route_some (hroutes ▸ hq')
    rw [hgrows.route hr'] at hr
    cases hr
    exact h.idle hv i v c g' p hi hr' ha
  · intro pre c i payload post hlog
    rcases snoc_eq_split hlog with ⟨_, he, _⟩ | ⟨post', _, hl⟩
    · cases he
    · obtain ⟨req', turn', g', p, hj⟩ := h.opened pre c i payload post' hl
      exact ⟨req', turn', g', p, hj.mono hgrows⟩

theorem Inv.accept (h : s.Inv code) (ha : s.manager.accept k = some m) (peer : Peer) :
    ({ s with manager := m, peers := s.peers ++ [peer] } : Intake).Inv code := by
  obtain ⟨q, hq, hc, hh, hr⟩ := Manager.accept_homes ha
  have hgrows : s.Grows { s with manager := m, peers := s.peers ++ [peer] } :=
    ⟨hc ▸ List.prefix_rfl, hh ▸ List.prefix_rfl, hr ▸ List.prefix_append _ _, List.prefix_rfl,
      List.prefix_append _ _⟩
  refine ⟨?_, ?_, h.asked, ?_, ?_, ?_, ?_⟩
  · rw [h.granted, hh]
  · intro k' g hg
    rw [hc, hh]
    exact h.owner k' g hg
  · rw [hr, List.length_append, List.length_append, h.peered]
    rfl
  · intro r hm
    rw [hr] at hm
    rw [hh]
    rcases List.mem_append.1 hm with hm | hm
    · exact h.routed r hm
    · rw [List.mem_singleton] at hm
      subst hm
      exact hq
  · intro i v c g p hi hroute hadm
    obtain ⟨f, _, _, rfl⟩ := Manager.accept_cases ha
    rw [getElem?_push] at hi
    split at hi
    · cases hi
      rfl
    · have hi' : s.manager.routes[i]? = some (v.session, v.forward) := by
        rw [Manager.routes, List.getElem?_map, hi, Option.map_some]
      obtain ⟨c', g', p', hr'⟩ := h.route_some hi'
      rw [hgrows.route hr'] at hroute
      cases hroute
      exact h.screened i v c g p hi hr' hadm
  · intro pre c i payload post hlog
    obtain ⟨req, turn, g, p, hj⟩ := h.opened pre c i payload post hlog
    exact ⟨req, turn, g, p, hj.mono hgrows⟩

theorem visits_idle (h : Manager.Visits cap m i v st f move m') (hi : v.stage.idle = true) :
    (∃ allowed, move = .screen allowed ∧ m'.visitors = m.visitors.set i
      { v with stage := if allowed then .admitted else .closingSocket }) ∨
    move = .closeSocket ∧ m'.visitors = m.visitors.set i { v with stage := .returned } := by
  cases h with
  | screen allowed hs => exact .inl ⟨allowed, rfl, rfl⟩
  | closeSocket hs => exact .inr ⟨rfl, rfl⟩
  | _ => simp_all [Stage.idle]

theorem Inv.visit (h : s.Inv code) (hon : s.honest i move = true)
    (hv : s.manager.handleVisitor cap i move = some m) :
    ({ s with manager := m, log := s.log ++ (s.sends code i move).toList } : Intake).Inv code := by
  obtain ⟨v, st, f, hi, hst, hf, hvis⟩ := Manager.handleVisitor_cases hv
  have hroute : s.manager.routes[i]? = some (v.session, v.forward) := by
    rw [Manager.routes, List.getElem?_map, hi, Option.map_some]
  obtain ⟨c, g, p, hr⟩ := h.route_some hroute
  apply h.keeps (hvis.keeps hi hst hf)
  · intro j v' c' g' p' hj hr' ha
    by_cases he : i = j
    · subst he
      have hidle := h.screened i v c' g' p' hi hr' ha
      rcases visits_idle hvis hidle with ⟨allowed, rfl, hset⟩ | ⟨rfl, hset⟩
      · have hallowed : allowed = false := by simpa [honest, hr', ha] using hon.symm
        rw [hset, getElem?_set_some hi, if_pos rfl, hallowed] at hj
        cases hj
        rfl
      · rw [hset, getElem?_set_some hi, if_pos rfl] at hj
        cases hj
        rfl
    · obtain ⟨v₁, f₁, ht⟩ := hvis.touches hf
      rw [ht.visitor_get hi, if_neg he] at hj
      exact h.screened j v' c' g' p' hj hr' ha
  · intro c' i' payload hx
    cases move with
    | openChannel opened =>
      rw [sends, hr] at hx
      cases hx
      -- A run at this stage is not idle, so the allowlist admits its visitor.
      have hadm : g.restriction.admits p.remoteAddr = true := by
        by_contra hne
        have hidle := h.screened i v c g p hi hr (eq_false_of_ne_true hne)
        rcases visits_idle hvis hidle with ⟨_, he, _⟩ | ⟨he, _⟩ <;> cases he
      obtain ⟨hmem, hconn⟩ := h.route_conn hr
      obtain ⟨req, turn, ht, hg⟩ := h.asked g hmem
      exact ⟨req, turn, g, p, hconn ▸ ht, hg, hr, hadm, rfl⟩
    | _ => cases hx

theorem Inv.request (h : s.Inv code) (found : Option Lease) (now : Time) (c : Nat) (id : GoString)
    (inUse : Int → Bool) (req : GlobalRequest) (loops : GoMap Nat RequestLoop)
    (r : Manager × Turn) (hr : s.manager.handleGlobalRequest code found now c id inUse req = r) :
    ({ s with manager := r.1, grants := s.grants ++ r.2.grant.toList, loops := loops,
              log := s.log ++ [.took c req r.2] } : Intake).Inv code := by
  have hcases := s.manager.handleGlobalRequest_cases code found now c id inUse req
  rw [hr] at hcases
  rcases hcases with ⟨hm, hg⟩ | ⟨q, l, _, _, hs, hg⟩
  · have hk : s.manager.Keeps r.1 ∧ r.1.visitors = s.manager.visitors := by
      rcases hm with hm | ⟨_, hm⟩
      · rw [hm]
        exact ⟨.refl _, rfl⟩
      · rw [hm]
        exact s.manager.cancelForward_keeps id c
    rw [hg, Option.toList_none, List.append_nil]
    exact h.keeps hk.1 (h.idle hk.2) loops (some (.took c req r.2)) nofun
  · obtain ⟨p, hp, hc, hh, hro⟩ := Manager.startForward_conn hs
    have hv : r.1.visitors = s.manager.visitors := by
      obtain ⟨_, _, _, he⟩ := Manager.startForward_eq_ok hs
      rw [he]
      rfl
    rw [hg, Option.toList_some]
    exact h.start (g := ⟨l, c, q.addr, q.port⟩) hp hc hh hv loops hg

theorem Inv.step (h : s.Inv code) (hs : s.step code cap e = some s') : s'.Inv code := by
  have hquiet : ∀ (loops : GoMap Nat RequestLoop) (x : Option Packet),
      (∀ c i payload, x ≠ some (.opened c i payload)) →
      ({ s with loops := loops, log := s.log ++ x.toList } : Intake).Inv code := by
    intro loops x hx
    exact h.keeps (.refl _) (h.idle rfl) loops x fun c i payload he => absurd he (hx c i payload)
  cases step_cases hs with
  | serve c id => simpa using hquiet (s.loops.insert c (.serving id)) none nofun
  | request c id found now inUse req r _ hr => exact h.request found now c id inUse req _ r hr
  | reply c id reply gone =>
    exact hquiet _ (reply.map (Packet.replied c)) (by cases reply <;> nofun)
  | hangup c => simpa using hquiet (s.loops.insert c .ended) none nofun
  | accept k peer m hm => exact h.accept hm peer
  | visit i move m hon hm => exact h.visit hon hm
  | manage op m hb hm =>
    obtain ⟨hst, hh, hv⟩ := Manager.background_frame hb hm
    simpa using h.keeps (.of_states hst hh hv) (h.idle hv) s.loops none nofun

theorem inv_empty : empty.Inv code :=
  ⟨rfl, (fun _ _ h => nomatch h), (fun _ h => nomatch h), rfl, (fun _ h => nomatch h),
    (fun _ _ _ _ _ h => nomatch h), fun pre _ _ _ _ h => by cases pre <;> cases h⟩

theorem inv_of_run (h : runFrom (step code cap) empty es = some s) : s.Inv code :=
  runFrom_invariant (fun _ _ _ => Inv.step) inv_empty h

theorem manager_of_run (h : runFrom (step code cap) empty es = some s) :
    ∃ ops, Manager.Run cap ops s.manager := by
  refine runFrom_invariant (P := fun s => ∃ ops, Manager.Run cap ops s.manager) ?_ ⟨[], .nil⟩ h
  rintro s e s' ⟨ops, hr⟩ hs
  have hop : ∀ op m, s.manager.step cap op = some m → ∃ ops, Manager.Run cap ops m :=
    fun op m hm => ⟨_, hr.snoc hm⟩
  cases step_cases hs with
  | serve => exact ⟨ops, hr⟩
  | request c id found now inUse req r _ he =>
    have hcases := s.manager.handleGlobalRequest_cases code found now c id inUse req
    rw [he] at hcases
    rcases hcases with ⟨hm | ⟨_, hm⟩, _⟩ | ⟨q, l, _, _, hst, _⟩
    · exact ⟨ops, hm ▸ hr⟩
    · exact hop (.cancelForward id c) _ (congrArg some hm.symm)
    · exact hop (.startForward found now c id inUse) _ (by rw [Manager.step, hst])
  | reply => exact ⟨ops, hr⟩
  | hangup => exact ⟨ops, hr⟩
  | accept k peer m hm => exact hop (.accept k) m hm
  | visit i move m _ hm => exact hop (.visit i move) m hm
  | manage op m _ hm => exact hop op m hm

/-- A channel that is opened on a connection carries the address and the port of a forward that
the connection has asked for and was granted, with the port of the reply when it asked for
port 0, and the address and port of the visitor, or neither if its zone has a bracket. -/
theorem forwarded_as_requested {pre post : List Packet} {bytes : GoString}
    (h : runFrom (step code cap) empty es = some s)
    (hlog : s.log = pre ++ .opened c i bytes :: post) :
    ∃ (req : GlobalRequest) (turn : Turn) (g : Grant) (q : ForwardRequest) (p : Peer)
      (msg : ForwardedTCPPayload), .took c req turn ∈ pre ∧ turn.grant = some g ∧
      req.type = lit "tcpip-forward" ∧ code.forwardRequest.unmarshal req.payload = some q ∧
      s.peers[i]? = some p ∧ code.forwardedTCPPayload.unmarshal bytes = some msg ∧
      msg.addr = q.addr ∧ (q.port ≠ 0 → msg.port = q.port) ∧
      (q.port = 0 → msg.port = UInt32.ofInt g.lease.allocatedPort ∧
        ∀ reply, turn.reply = some reply → code.port.unmarshal reply.payload = some msg.port) ∧
      (NoBrackets p.zone →
        parseAddr msg.originAddr = some p.addr ∧ msg.originPort.toNat = p.port.toNat) ∧
      (¬NoBrackets p.zone → msg.originAddr = [] ∧ msg.originPort = 0) := by
  obtain ⟨req, turn, g, p, hj⟩ := (inv_of_run h).opened pre c i bytes post hlog
  have ha : turn.Answers code c req := answers_of_run h (by
    rw [hlog]
    exact List.mem_append_left _ hj.took)
  obtain ⟨_, htype, hq⟩ := ha.grant g hj.grant
  obtain ⟨_, _, _, _, _, hp⟩ := route_eq_some.1 hj.route
  have hmsg : code.forwardedTCPPayload.unmarshal bytes =
      some ⟨g.addr, g.connectedPort, p.origin.1, p.origin.2⟩ := by
    rw [hj.payload]
    have haddr := code.forwardRequest.range_of_unmarshal _ _ hq
    exact code.forwardedTCPPayload.unmarshal_marshal _ ⟨haddr, p.length_origin⟩
  refine ⟨req, turn, g, _, p, _, hj.took, hj.grant, htype, hq, hp, hmsg, rfl, fun hne => if_neg hne,
    ?_, ?_⟩
  · intro hz
    refine ⟨if_pos hz, ?_⟩
    intro reply hr
    rw [ha.reply, hj.grant, replyRequest] at hr
    split at hr
    · cases hr
      rw [Option.map_some, Option.getD_some, Grant.answer, Grant.connectedPort, if_pos hz,
        if_pos hz]
      exact code.port.unmarshal_marshal _ trivial
    · cases hr
  · rcases p.origin_cases with ⟨hz, ho⟩ | ⟨hz, ho⟩
    · refine ⟨?_, fun hnot => absurd hz hnot⟩
      intro _
      simp only [ho]
      exact ⟨parseAddr_string p.addr_spec.1, UInt16.toNat_toUInt32 _⟩
    · refine ⟨fun hnone => absurd hnone hz, ?_⟩
      intro _
      simp only [ho, and_self]

theorem forwarded_as_requested_sample : ∃ s pre bytes post req turn q msg,
    runFrom (step rfc4254 4) empty sampleVisits = some s ∧
    s.log = pre ++ .opened 0 0 bytes :: post ∧
    .took 0 req turn ∈ pre ∧ rfc4254.forwardRequest.unmarshal req.payload = some q ∧
    rfc4254.forwardedTCPPayload.unmarshal bytes = some msg ∧ msg.addr = q.addr := by
  obtain ⟨s, hs, hx⟩ := sampleVisits_run (fun s => s.log.any (Packet.opens 0 0) = true)
    (by decide)
  obtain ⟨x, hm, ho⟩ := List.any_eq_true.1 hx
  obtain ⟨bytes, rfl⟩ := Packet.opens_iff.1 ho
  obtain ⟨pre, post, hl⟩ := List.append_of_mem hm
  obtain ⟨req, turn, g, q, p, msg, ht, _, _, hq, _, hmsg, haddr, _⟩ := forwarded_as_requested hs hl
  exact ⟨s, pre, bytes, post, req, turn, q, msg, hs, hl, ht, hq, hmsg, haddr⟩

/-- A visitor that the allowlist of the lease bars holds no slot and has no channel, and none was
ever opened for it. -/
theorem barred_visitor_stays_out (h : runFrom (step code cap) empty es = some s)
    (hv : s.manager.visitors[i]? = some v) : ∃ c g p, s.route i = some (c, g, p) ∧
      (g.lease.allowsIP (visitorIP p.remoteAddr) = false →
        v.stage.idle = true ∧ v.slot = false ∧ .channel i ∉ s.manager.live ∧
        ∀ c' bytes, .opened c' i bytes ∉ s.log) := by
  have hinv := inv_of_run h
  obtain ⟨ops, hrun⟩ := manager_of_run h
  have hr : s.manager.routes[i]? = some (v.session, v.forward) := by
    rw [Manager.routes, List.getElem?_map, hv, Option.map_some]
  obtain ⟨c, g, p, hroute⟩ := hinv.route_some hr
  refine ⟨c, g, p, hroute, ?_⟩
  intro hbar
  rw [← Restriction.admits_ofLease] at hbar
  have hidle := hinv.screened i v c g p hv hroute hbar
  refine ⟨hidle, ?_, ?_, ?_⟩
  · rw [hrun.slotted.slot v (List.mem_of_getElem? hv), (Stage.idle_spec hidle).1]
  · intro hch
    have hhas := hrun.guarded.channel i v hv hch
    rw [(Stage.idle_spec hidle).2] at hhas
    cases hhas
  · intro c' bytes hm
    obtain ⟨pre, post, hl⟩ := List.append_of_mem hm
    obtain ⟨req, turn, g', p', hj⟩ := hinv.opened pre c' i bytes post hl
    have he := hj.route
    rw [hroute] at he
    cases he
    have hadm := hj.admits
    rw [Grant.restriction, hbar] at hadm
    cases hadm

theorem barred_visitor_stays_out_sample : ∃ s v,
    runFrom (step rfc4254 4) empty sampleVisits = some s ∧ s.manager.visitors[1]? = some v ∧
    v.slot = false ∧ ∀ c bytes, .opened c 1 bytes ∉ s.log := by
  obtain ⟨s, hs, hx⟩ := sampleVisits_run (fun s => s.manager.visitors[1]?.isSome = true ∧
    (s.route 1).any (fun r => !r.2.1.lease.allowsIP (visitorIP r.2.2.remoteAddr)) = true)
    (by decide)
  obtain ⟨v, hv⟩ := Option.isSome_iff_exists.1 hx.1
  obtain ⟨c, g, p, hr, hb⟩ := barred_visitor_stays_out hs hv
  have hbar : g.lease.allowsIP (visitorIP p.remoteAddr) = false := by
    rw [hr] at hx
    simpa using hx.2
  obtain ⟨_, hslot, _, hlog⟩ := hb hbar
  exact ⟨s, v, hs, hv, hslot, hlog⟩

end Intake

end HyruleProxy
