import HyruleProxy.Runs
import HyruleProxy.SSHMessages
import HyruleProxy.Sessions

namespace HyruleProxy
set_option autoImplicit true

/-- What `StartForward` has read and keeps in a forward: the lease, the connection and the
address and port that it asked for. -/
structure Grant where
  lease : Lease
  conn : Nat
  addr : GoString
  port : UInt32

namespace Grant

variable (code : Marshalling) (g : Grant)

/-- The port of the lease, as the wire has it. -/
def assignedPort : UInt32 := UInt32.ofInt g.lease.allocatedPort

def connectedPort : UInt32 := if g.port = 0 then g.assignedPort else g.port

def restriction : Restriction := .ofLease g.lease

/-- What `handleVisitor` sends to open a channel for the visitor. -/
def payload (p : Peer) : GoString :=
  code.forwardedTCPPayload.marshal ⟨g.addr, g.connectedPort, p.origin.1, p.origin.2⟩

/-- What the reply to the granted request carries. -/
def answer : GoString := if g.port = 0 then code.port.marshal g.assignedPort else []

end Grant

structure RequestReply where
  ok : Bool
  payload : GoString

def replyRequest (req : GlobalRequest) (ok : Bool) (payload : GoString) : Option RequestReply :=
  if req.wantReply then some ⟨ok, payload⟩ else none

/-- What one turn of `handleGlobalRequests` comes to: a forward that was granted, the reply to
send, and whether the loop returns after it. -/
structure Turn where
  grant : Option Grant
  reply : Option RequestReply
  gone : Bool

/-- One turn of `handleGlobalRequests` on a connection that serves the lease `id`. -/
def Manager.handleGlobalRequest (code : Marshalling) (m : Manager) (found : Option Lease)
    (now : Time) (conn : Nat) (id : GoString) (inUse : Int → Bool) (req : GlobalRequest) :
    Manager × Turn :=
  if req.type = lit "tcpip-forward" then
    match code.forwardRequest.unmarshal req.payload with
    | none => ⟨m, none, replyRequest req false [], false⟩
    | some r =>
      match m.startForward found now conn id inUse with
      | .error e => ⟨m, none, replyRequest req false [], decide (e = .leaseGone)⟩
      | .ok (m', l) =>
        let g : Grant := ⟨l, conn, r.addr, r.port⟩
        ⟨m', some g, replyRequest req true (g.answer code), false⟩
  else if req.type = lit "cancel-tcpip-forward" then
    ⟨(m.cancelForward id conn).1, none, replyRequest req true [], false⟩
  else ⟨m, none, replyRequest req false [], false⟩

/-- Where the request loop of a connection is: between two turns, before the reply of one, or
at its end. -/
inductive RequestLoop where
  | serving (id : GoString)
  | replying (id : GoString) (reply : Option RequestReply) (gone : Bool)
  | ended

/-- What happens on a connection: a turn on one of its requests, a reply to it, and the opening
of a channel for a visitor. -/
inductive Packet where
  | took (conn : Nat) (req : GlobalRequest) (turn : Turn)
  | replied (conn : Nat) (reply : RequestReply)
  | opened (conn visitor : Nat) (payload : GoString)

/-- Whether a channel is opened on the connection `c` for the visitor `i`. -/
def Packet.opens (c i : Nat) : Packet → Bool
  | .opened c' i' _ => decide (c' = c ∧ i' = i)
  | _ => false

theorem Packet.opens_iff {x : Packet} : x.opens c i = true ↔ ∃ bytes, x = .opened c i bytes := by
  cases x with
  | opened c' i' bytes => simp [opens]
  | _ => simp [opens]

/-- The manager with the fields of its forwards, the addresses of the visitors, the request loops
and the log of what happened on the connections. -/
structure Intake where
  manager : Manager
  grants : List Grant
  peers : List Peer
  loops : GoMap Nat RequestLoop
  log : List Packet

/-- The operations of the manager that no request of a client and no visitor asks for. -/
def Op.background : Op → Bool
  | .registerConn .. => true
  | .teardown _ => true
  | .onConnClosed .. => true
  | .close .. => true
  | _ => false

inductive IntakeEvent where
  | serve (conn : Nat) (id : GoString)
  | request (conn : Nat) (found : Option Lease) (now : Time) (inUse : Int → Bool)
      (req : GlobalRequest)
  | reply (conn : Nat)
  | hangup (conn : Nat)
  | accept (k : Nat) (peer : Peer)
  | visit (i : Nat) (move : Move)
  | manage (op : Op)

namespace Intake

def empty : Intake := ⟨.empty, [], [], ∅, []⟩

variable (code : Marshalling) (s : Intake)

/-- What the request of the visitor `i` runs with: its connection, the fields of its forward and
its address. -/
def route (i : Nat) : Option (Nat × Grant × Peer) := do
  let v ← s.manager.visitors[i]?
  let st ← s.manager.sessions[v.session]?
  let g ← s.grants[v.forward]?
  let p ← s.peers[i]?
  return (st.conn, g, p)

/-- The verdict of the allowlist check is that of the forward on the visitor's address. -/
def honest (i : Nat) : Move → Bool
  | .screen allowed => (s.route i).any fun r => r.2.1.restriction.admits r.2.2.remoteAddr = allowed
  | _ => true

/-- The packet that a step of the visitor `i` sends. -/
def sends (i : Nat) : Move → Option Packet
  | .openChannel _ => (s.route i).map fun r => .opened r.1 i (r.2.1.payload code r.2.2)
  | _ => none

def step (code : Marshalling) (cap : Int) (s : Intake) : IntakeEvent → Option Intake
  | .serve c id =>
    if s.loops[c]?.isNone then some { s with loops := s.loops.insert c (.serving id) } else none
  | .request c found now inUse req =>
    match s.loops[c]? with
    | some (.serving id) =>
      let r := s.manager.handleGlobalRequest code found now c id inUse req
      some { s with
        manager := r.1
        grants := s.grants ++ r.2.grant.toList
        loops := s.loops.insert c (.replying id r.2.reply r.2.gone)
        log := s.log ++ [.took c req r.2] }
    | _ => none
  | .reply c =>
    match s.loops[c]? with
    | some (.replying id reply gone) =>
      some { s with
        loops := s.loops.insert c (if gone then .ended else .serving id)
        log := s.log ++ (reply.map (Packet.replied c)).toList }
    | _ => none
  | .hangup c =>
    match s.loops[c]? with
    | some (.serving _) => some { s with loops := s.loops.insert c .ended }
    | _ => none
  | .accept k peer =>
    (s.manager.accept k).map fun m => { s with manager := m, peers := s.peers ++ [peer] }
  | .visit i move =>
    if s.honest i move then
      (s.manager.handleVisitor cap i move).map fun m =>
        { s with manager := m, log := s.log ++ (s.sends code i move).toList }
    else none
  | .manage op =>
    if op.background then (s.manager.step cap op).map fun m => { s with manager := m } else none

/-- What a step can do. -/
inductive Steps (code : Marshalling) (cap : Int) (s : Intake) : Intake → Prop where
  | serve (c : Nat) (id : GoString) : s.loops[c]? = none →
      Steps code cap s { s with loops := s.loops.insert c (.serving id) }
  | request (c : Nat) (id : GoString) (found : Option Lease) (now : Time) (inUse : Int → Bool)
      (req : GlobalRequest) (r : Manager × Turn) : s.loops[c]? = some (.serving id) →
      s.manager.handleGlobalRequest code found now c id inUse req = r → Steps code cap s { s with
        manager := r.1
        grants := s.grants ++ r.2.grant.toList
        loops := s.loops.insert c (.replying id r.2.reply r.2.gone)
        log := s.log ++ [.took c req r.2] }
  | reply (c : Nat) (id : GoString) (reply : Option RequestReply) (gone : Bool) :
      s.loops[c]? = some (.replying id reply gone) → Steps code cap s { s with
        loops := s.loops.insert c (if gone then .ended else .serving id)
        log := s.log ++ (reply.map (Packet.replied c)).toList }
  | hangup (c : Nat) (id : GoString) : s.loops[c]? = some (.serving id) →
      Steps code cap s { s with loops := s.loops.insert c .ended }
  | accept (k : Nat) (peer : Peer) (m : Manager) : s.manager.accept k = some m →
      Steps code cap s { s with manager := m, peers := s.peers ++ [peer] }
  | visit (i : Nat) (move : Move) (m : Manager) : s.honest i move = true →
      s.manager.handleVisitor cap i move = some m →
      Steps code cap s { s with manager := m, log := s.log ++ (s.sends code i move).toList }
  | manage (op : Op) (m : Manager) : op.background = true → s.manager.step cap op = some m →
      Steps code cap s { s with manager := m }

theorem step_cases {code : Marshalling} {s s' : Intake} (h : s.step code cap e = some s') :
    s.Steps code cap s' := by
  cases e with
  | serve c id =>
    simp only [step] at h
    split at h
    · rename_i hc
      cases h
      exact .serve c id (Option.isNone_iff_eq_none.1 hc)
    · cases h
  | request c found now inUse req =>
    simp only [step] at h
    split at h
    · rename_i id hc
      cases h
      exact .request c id found now inUse req _ hc rfl
    · cases h
  | reply c =>
    simp only [step] at h
    split at h
    · rename_i id reply gone hc
      cases h
      exact .reply c id reply gone hc
    · cases h
  | hangup c =>
    simp only [step] at h
    split at h
    · rename_i id hc
      cases h
      exact .hangup c id hc
    · cases h
  | accept k peer =>
    obtain ⟨m, hm, rfl⟩ := Option.map_eq_some_iff.1 h
    exact .accept k peer m hm
  | visit i move =>
    simp only [step] at h
    split at h
    · rename_i hon
      obtain ⟨m, hm, rfl⟩ := Option.map_eq_some_iff.1 h
      exact .visit i move m hon hm
    · cases h
  | manage op =>
    simp only [step] at h
    split at h
    · rename_i hb
      obtain ⟨m, hm, rfl⟩ := Option.map_eq_some_iff.1 h
      exact .manage op m hb hm
    · cases h

end Intake

section Turns

variable {code : Marshalling}

/-- What a turn can do to the manager, and what it grants. -/
theorem Manager.handleGlobalRequest_cases (code : Marshalling) (m : Manager)
    (found : Option Lease) (now : Time) (c : Nat) (id : GoString) (inUse : Int → Bool)
    (req : GlobalRequest) :
    let r := m.handleGlobalRequest code found now c id inUse req
    (r.1 = m ∨ req.type = lit "cancel-tcpip-forward" ∧ r.1 = (m.cancelForward id c).1) ∧
        r.2.grant = none ∨
      ∃ q l, req.type = lit "tcpip-forward" ∧
        code.forwardRequest.unmarshal req.payload = some q ∧
        m.startForward found now c id inUse = .ok (r.1, l) ∧
        r.2.grant = some ⟨l, c, q.addr, q.port⟩ := by
  rw [handleGlobalRequest]
  split
  · rename_i ht
    split
    · exact .inl ⟨.inl rfl, rfl⟩
    · rename_i q hq
      split
      · exact .inl ⟨.inl rfl, rfl⟩
      · rename_i m' l hs
        exact .inr ⟨q, l, ht, hq, hs, rfl⟩
  · split
    · rename_i hc
      exact .inl ⟨.inr ⟨hc, rfl⟩, rfl⟩
    · exact .inl ⟨.inl rfl, rfl⟩

/-- What a turn on a request comes to: a grant is for the address and the port in its payload,
and the reply tells whether there was one. -/
structure Turn.Answers (code : Marshalling) (turn : Turn) (c : Nat) (req : GlobalRequest) :
    Prop where
  grant : ∀ g, turn.grant = some g → g.conn = c ∧ req.type = lit "tcpip-forward" ∧
    code.forwardRequest.unmarshal req.payload = some ⟨g.addr, g.port⟩
  reply : turn.reply = replyRequest req
    (turn.grant.isSome || decide (req.type = lit "cancel-tcpip-forward"))
    ((turn.grant.map (Grant.answer code)).getD [])

theorem Manager.handleGlobalRequest_answers (m : Manager) (found : Option Lease) (now : Time)
    (c : Nat) (id : GoString) (inUse : Int → Bool) (req : GlobalRequest) :
    (m.handleGlobalRequest code found now c id inUse req).2.Answers code c req := by
  have hne : lit "tcpip-forward" ≠ lit "cancel-tcpip-forward" := by decide
  rw [handleGlobalRequest]
  split
  · rename_i ht
    have hcancel : req.type ≠ lit "cancel-tcpip-forward" := ht ▸ hne
    split
    · exact ⟨nofun, by simp [hcancel]⟩
    · rename_i q hq
      split
      · exact ⟨nofun, by simp [hcancel]⟩
      · refine ⟨?_, by simp⟩
        intro g hg
        cases hg
        exact ⟨rfl, ht, hq⟩
  · split
    · rename_i hc
      exact ⟨nofun, by simp [hc]⟩
    · rename_i hc
      exact ⟨nofun, by simp [hc]⟩

end Turns

namespace Intake

variable {code : Marshalling} {cap : Int} {s : Intake}

theorem answers_of_run (h : runFrom (step code cap) empty es = some s)
    (ht : .took c req turn ∈ s.log) : turn.Answers code c req := by
  refine runFrom_invariant
    (P := fun s => ∀ c req turn, .took c req turn ∈ s.log → turn.Answers code c req)
    ?_ (fun _ _ _ hm => absurd hm List.not_mem_nil) h c req turn ht
  intro s e s' hi hs c req turn ht
  cases step_cases hs with
  | serve => exact hi c req turn ht
  | request c' id found now inUse req' r _ hr =>
    rcases List.mem_append.1 ht with ht | ht
    · exact hi c req turn ht
    · cases List.mem_singleton.1 ht
      rw [← hr]
      exact s.manager.handleGlobalRequest_answers found now c id inUse req
  | reply c' id reply gone =>
    rcases List.mem_append.1 ht with ht | ht
    · exact hi c req turn ht
    · cases reply <;> simp at ht
  | hangup => exact hi c req turn ht
  | accept => exact hi c req turn ht
  | visit i move =>
    rcases List.mem_append.1 ht with ht | ht
    · exact hi c req turn ht
    · cases move <;> simp [sends] at ht
  | manage => exact hi c req turn ht

/-- A lease for the network 10.0.0.0/8. -/
def sampleGuest : Lease := Store.newLease ⟨lit "a", 3600, [lit "10.0.0.0/8"]⟩ [] 20000 0

def samplePeer (o : Octets) : Peer :=
  ⟨o.1, [], 4711, .inl o.2, fun h => absurd rfl h, by decide⟩

/-- A client asks for port 0; two visitors come, one of them from the network of the lease, and
its channel is opened before the reply is sent. -/
def sampleVisits : List IntakeEvent :=
  [.manage (.registerConn (some sampleGuest) 1 0 (lit "a")), .serve 0 (lit "a"),
    .request 0 (some sampleGuest) 1 (fun _ => false)
      ⟨lit "tcpip-forward", true, rfc4254.forwardRequest.marshal ⟨[], 0⟩⟩,
    .accept 0 (samplePeer ⟨[10, 0, 0, 7], rfl⟩), .accept 0 (samplePeer ⟨[192, 0, 2, 1], rfl⟩),
    .visit 0 (.screen true), .visit 1 (.screen false), .visit 0 .track, .visit 0 .load,
    .visit 0 .swap, .visit 0 (.openChannel true), .reply 0]

theorem sampleVisits_run (P : Intake → Prop) [DecidablePred P]
    (h : (runFrom (step rfc4254 4) empty sampleVisits).any (fun s => decide (P s)) = true) :
    ∃ s, runFrom (step rfc4254 4) empty sampleVisits = some s ∧ P s := by
  obtain ⟨s, hs, hp⟩ := Option.any_eq_true _ _ |>.1 h
  exact ⟨s, hs, of_decide_eq_true hp⟩

end Intake

end HyruleProxy
