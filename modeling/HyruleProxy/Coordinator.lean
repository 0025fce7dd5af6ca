import HyruleProxy.Store

namespace HyruleProxy
set_option autoImplicit true

/-- The settings of the tunnel daemon that the coordinator reads. -/
structure TunnelConfig where
  endpointHost : GoString
  sshPort : Int
  minLeaseSeconds : Int
  maxLeaseSeconds : Int

/-- What `Manager.Stats` reports for a lease. -/
structure ConnStats where
  connected : Bool
  visitors : Int
  bytesIn : Int
  bytesOut : Int

structure LeaseResponse where
  leaseID : GoString
  token : GoString
  port : Int
  endpointHost : GoString
  sshPort : Int
  status : Status
  expiresAt : Time
  connected : Bool
  visitorConns : Int
  bytesIn : Int
  bytesOut : Int
  deriving DecidableEq

structure HealthResponse where
  status : GoString
  service : GoString
  version : GoString
  activeLeases : Int
  freePorts : Int
  deriving DecidableEq

inductive Control where
  | createLease (leaseID : GoString) (durationSeconds : Int) (allowlistCIDRs : List GoString)
  | extendLease (id : GoString) (durationSeconds : Int)
  | revokeLease (id : GoString)
  | getLease (id : GoString)
  | listLeases
  | health
  | sweepExpired

/-- What a control operation meets outside the store: the bind probes, the random bytes of a
token, the clock, how a transaction ends for each id, the order in which a sweep takes its ids,
and the statistics of the connections. -/
structure ControlEnv where
  portInUse : Int → Bool
  rand : Option (List UInt8)
  now : Time
  persist : Persist
  commits : GoString → Bool
  order : List GoString → List GoString
  stats : GoString → ConnStats

inductive Answer where
  | created (result : Except StoreError LeaseResponse)
  | extended (result : Except StoreError LeaseResponse)
  | revoked (result : Except StoreError Unit)
  | found (result : Option LeaseResponse)
  | leases (result : List LeaseResponse)
  | health (result : HealthResponse)
  | reaped (n : Nat)

/-- All leases in the order of their ids. -/
def Store.list (s : Store) : List Lease :=
  (s.byID.toList.filterMap fun (_, r) => s.heap[r]?).mergeSort
    fun l l' => (compare l.leaseID l'.leaseID).isLE

/-- The product of two `int64` wraps around. -/
def clampDuration (cfg : TunnelConfig) (seconds : Int) : Duration :=
  let seconds := if seconds < cfg.minLeaseSeconds then cfg.minLeaseSeconds else seconds
  let seconds := if seconds > cfg.maxLeaseSeconds then cfg.maxLeaseSeconds else seconds
  (seconds * 10 ^ 9).bmod (2 ^ 64)

def toResponse (cfg : TunnelConfig) (stats : GoString → ConnStats) (l : Lease)
    (includeToken : Bool) : LeaseResponse where
  leaseID := l.leaseID
  token := if includeToken then l.token else []
  port := l.allocatedPort
  endpointHost := cfg.endpointHost
  sshPort := cfg.sshPort
  status := l.status
  expiresAt := l.expiresAt
  connected := (stats l.leaseID).connected
  visitorConns := (stats l.leaseID).visitors
  bytesIn := (stats l.leaseID).bytesIn
  bytesOut := (stats l.leaseID).bytesOut

def healthResponse (s : Store) : HealthResponse where
  status := lit "ok"
  service := lit "hyrule-tunnel-proxy"
  version := lit "dev"
  activeLeases := s.stats.1
  freePorts := s.stats.2

/-- The loop of `SweepExpired` with the number of leases reaped so far. -/
def sweepLoop (cutoff : Time) (commits : GoString → Bool) :
    List GoString → Store → Nat → Nat × Store
  | [], s, reaped => (reaped, s)
  | id :: ids, s, reaped =>
    let r := s.markExpiredIfBefore id cutoff (commits id)
    if ¬ r.result.wasExpired then sweepLoop cutoff commits ids r.store reaped
    else if r.result.err.isSome ∨ ¬ r.result.removed then
      sweepLoop cutoff commits ids r.store reaped
    else sweepLoop cutoff commits ids r.store (reaped + 1)

/-- A control operation: its answer and the store it leaves. -/
def control (cfg : TunnelConfig) (s : Store) (env : ControlEnv) : Control → Answer × Store
  | .createLease leaseID seconds cidrs =>
    let r := s.create ⟨leaseID, clampDuration cfg seconds, cidrs⟩
      ⟨env.portInUse, env.rand, env.now, env.persist⟩
    (.created (r.result.map fun l => toResponse cfg env.stats l true), r.store)
  | .extendLease id seconds =>
    let r := s.extend id (clampDuration cfg seconds) env.persist
    (.extended (r.result.map fun l => toResponse cfg env.stats l false), r.store)
  | .revokeLease id =>
    let r := s.revoke id (env.commits id)
    (.revoked r.result, r.store)
  | .getLease id => (.found ((s.get id).map fun l => toResponse cfg env.stats l false), s)
  | .listLeases => (.leases (s.list.map fun l => toResponse cfg env.stats l false), s)
  | .health => (.health (healthResponse s), s)
  | .sweepExpired =>
    let r := sweepLoop env.now env.commits (env.order (s.expiredBefore env.now)) s 0
    (.reaped r.1, r.2)

/-- The answers to a sequence of control operations. -/
def answers (cfg : TunnelConfig) : Store → List (Control × ControlEnv) → List Answer
  | _, [] => []
  | s, (op, env) :: ops =>
    (control cfg s env op).1 :: answers cfg (control cfg s env op).2 ops

end HyruleProxy
