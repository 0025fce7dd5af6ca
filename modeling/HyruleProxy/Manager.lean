import HyruleProxy.Store

namespace HyruleProxy
set_option autoImplicit true

/-- What can be closed: the listener of a forward or an SSH connection, by number. -/
inductive Handle where
  | listener (n : Nat)
  | conn (c : Nat)
  deriving DecidableEq

/-- The connection of a lease and the listener of its forward, if it has one. -/
structure LeaseState where
  conn : Nat
  forward : Option Nat
  deriving DecidableEq

def LeaseState.handles (st : LeaseState) : List Handle :=
  (st.forward.map Handle.listener).toList ++ [.conn st.conn]

abbrev Leases := GoMap GoString LeaseState

inductive ForwardError where
  | leaseGone
  | duplicateForward
  | bind (port : Int)
  deriving DecidableEq

/-- The lease check that the token check, `handleConn`, `RegisterConn` and `StartForward` share:
the lookup found a lease that has not expired. -/
def liveAt (now : Time) (found : Option Lease) : Option Lease :=
  found.filter fun l => !l.expired now

/-- The token check of the SSH server, which resolves the user name to a lease. -/
def authByToken (s : Store) (user : GoString) (now : Time) : Option Lease :=
  liveAt now (s.findByToken user)

namespace Leases

variable (m : Leases)

/-- The section of `RegisterConn` after its lookup: the entry is replaced and the handles of
the old one are to be closed. -/
def registerConn (found : Option Lease) (now : Time) (conn : Nat) (id : GoString) :
    Option (Leases × List Handle) :=
  match liveAt now found with
  | none => none
  | some _ =>
    let owed := match m[id]? with
      | none => []
      | some old =>
        if old.conn = conn then (old.forward.map Handle.listener).toList else old.handles
    some (m.insert id ⟨conn, none⟩, owed)

/-- The section of `StartForward` after its lookup; `n` is the number of the new listener. -/
def startForward (found : Option Lease) (now : Time) (conn : Nat) (id : GoString)
    (inUse : Int → Bool) (n : Nat) : Except ForwardError (Leases × Lease) :=
  match liveAt now found with
  | none => .error .leaseGone
  | some l =>
    match m[id]? with
    | none => .error .leaseGone
    | some st =>
      if st.conn ≠ conn then .error .leaseGone
      else if st.forward ≠ none then .error .duplicateForward
      else if inUse l.allocatedPort then .error (.bind l.allocatedPort)
      else .ok (m.insert id { st with forward := some n }, l)

def teardown (id : GoString) : Leases × List Handle :=
  match m[id]? with
  | none => (m, [])
  | some st => (m.erase id, st.handles)

def cancelForward (id : GoString) (conn : Nat) : Leases × List Handle :=
  match m[id]? with
  | none => (m, [])
  | some st =>
    match st.forward with
    | none => (m, [])
    | some n =>
      if st.conn = conn then (m.insert id { st with forward := none }, [.listener n])
      else (m, [])

def onConnClosed (id : GoString) (conn : Nat) : Leases × List Handle :=
  match m[id]? with
  | none => (m, [])
  | some st =>
    if st.conn = conn then (m.erase id, (st.forward.map Handle.listener).toList) else (m, [])

end Leases

end HyruleProxy
