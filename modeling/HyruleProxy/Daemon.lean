import HyruleProxy.Recovery
import HyruleProxy.Manager

namespace HyruleProxy
set_option autoImplicit true

/-- A listener bound by `StartForward`, with the lease its check has read. -/
structure Listener where
  lease : GoString
  token : GoString
  port : Int
  conn : Nat

inductive Pc where
  | authed
  | checked
  | serving
  | exiting
  | done
  deriving DecidableEq

/-- The goroutine of an SSH connection. `leaseID` comes from the token check and `served` from
the lookup after the handshake; `born` counts the leases created when it authenticated, and
`registered` is the token of the lease that `RegisterConn` has read. -/
structure Handler where
  user : GoString
  leaseID : GoString
  served : GoString
  born : Nat
  registered : Option GoString
  pc : Pc

/-- A `Manager.mu` section between its `Store.Get` and the rest. -/
structure Section where
  conn : Nat
  id : GoString
  starts : Bool
  found : Option Lease
  deriving DecidableEq

/-- The goroutine of a `RevokeLease` (before the section of `Teardown`, after it, and after the
return) or of a `SweepExpired` (between two ids, or before a `Teardown`). -/
inductive Task where
  | revoking (id token : GoString)
  | revoked (id token : GoString)
  | returned (id token : GoString)
  | sweeping (cutoff : Time) (todo : List GoString)
  | reaping (id : GoString) (cutoff : Time) (todo : List GoString)

/-- The id whose `Teardown` is still to come. -/
def Task.tearing : Task → Option GoString
  | .revoking id _ => some id
  | .reaping id _ _ => some id
  | _ => none

/-- The task once the section of its `Teardown` is over. -/
def Task.torn : Task → Task
  | .revoking id token => .revoked id token
  | .reaping _ cutoff todo => .sweeping cutoff todo
  | t => t

inductive Agent where
  | handler (c : Nat)
  | task (k : Nat)
  deriving DecidableEq

/-- The tunnel daemon. `live` are the open handles and `owed` what a goroutine closes next;
`minted` and `births` record the tokens minted and the ids of the leases created so far. -/
structure World where
  store : Store
  minted : List GoString
  births : List GoString
  leases : Leases
  mu : Option Section
  live : Finset Handle
  listeners : List Listener
  handlers : List Handler
  tasks : List Task
  owed : Agent → List Handle

/-- One step of one goroutine. In `create` and `start`, `portInUse` answers for the listeners of
other programs; `mark k i` lets a sweep take the ids of its snapshot in any order. -/
inductive Act where
  | create (p : CreateParams) (env : CreateEnv)
  | extend (id : GoString) (d : Duration) (o : Persist)
  | revoke (id : GoString) (commits : Bool)
  | sweep (cutoff : Time)
  | mark (k i : Nat) (commits : Bool)
  | teardown (k : Nat)
  | finish (k : Nat)
  | close (a : Agent)
  | auth (user : GoString) (now : Time)
  | check (c : Nat) (now : Time)
  | lockRegister (c : Nat)
  | register (now : Time)
  | lockStart (c : Nat)
  | start (now : Time) (portInUse : Int → Bool)
  | cancel (c : Nat)
  | leave (c : Nat)
  | hangup (c : Nat)

namespace World

variable (w : World)

/-- Whether a listener of the daemon is open on the port. -/
def listening (port : Int) : Bool :=
  w.listeners.zipIdx.any fun (ln, n) => decide (ln.port = port ∧ .listener n ∈ w.live)

def birth (c : Call) : List GoString :=
  match c with
  | .create p _ =>
    if (w.store.get p.leaseID).isNone ∧ ((c.run w.store).store.get p.leaseID).isSome
    then [p.leaseID] else []
  | _ => []

/-- A call on the store. -/
def calls (c : Call) : World :=
  { w with
    store := (c.run w.store).store
    minted := c.token.toList ++ w.minted
    births := w.births ++ w.birth c }

def owes (a : Agent) (hs : List Handle) : World := { w with owed := Function.update w.owed a hs }

def setHandler (c : Nat) (hd : Handler) : World := { w with handlers := w.handlers.set c hd }

def setTask (k : Nat) (t : Task) : World := { w with tasks := w.tasks.set k t }

/-- The new entries of the manager and what the goroutine then has to close. -/
def unlock (a : Agent) (r : Leases × List Handle) : World :=
  { w with leases := r.1, mu := none }.owes a r.2

/-- The call of a `create`, whose bind probe sees the daemon's own listeners. -/
def createCall (p : CreateParams) (env : CreateEnv) : Call :=
  .create p { env with portInUse := fun port => w.listening port || env.portInUse port }

def create (p : CreateParams) (env : CreateEnv) : Option World :=
  if (mintToken env.rand).all (· ∉ w.minted) then some (w.calls (w.createCall p env)) else none

def revoke (id : GoString) (commits : Bool) : World :=
  match w.store.get id, (w.store.revoke id commits).result with
  | some l, .ok _ =>
    { w.calls (.revoke id commits) with tasks := w.tasks ++ [.revoking id l.token] }
  | _, _ => w.calls (.revoke id commits)

def mark (k i : Nat) (commits : Bool) : Option World :=
  match w.tasks[k]?, w.owed (.task k) with
  | some (.sweeping cutoff todo), [] =>
    match todo[i]? with
    | none => none
    | some id =>
      let r := (w.store.markExpiredIfBefore id cutoff commits).result
      some ((w.calls (.markExpiredIfBefore id cutoff commits)).setTask k
        (if r.wasExpired then .reaping id cutoff (todo.eraseIdx i)
          else .sweeping cutoff (todo.eraseIdx i)))
  | _, _ => none

def teardown (k : Nat) : Option World :=
  match w.mu, w.tasks[k]?, w.owed (.task k) with
  | none, some t, [] =>
    match t.tearing with
    | none => none
    | some id => some ((w.unlock (.task k) (w.leases.teardown id)).setTask k t.torn)
  | _, _, _ => none

def finish (k : Nat) : Option World :=
  match w.tasks[k]?, w.owed (.task k) with
  | some (.revoked id token), [] => some (w.setTask k (.returned id token))
  | _, _ => none

def close (a : Agent) : Option World :=
  match w.owed a with
  | [] => none
  | h :: hs => some ({ w with live := w.live.erase h }.owes a hs)

/-- A refused connection is closed before it is known to the manager. -/
def auth (user : GoString) (now : Time) : Option World :=
  match authByToken w.store user now with
  | none => none
  | some l => some { w with
      handlers := w.handlers ++ [⟨user, l.leaseID, l.leaseID, w.births.length, none, .authed⟩]
      live := insert (.conn w.handlers.length) w.live }

/-- The handler `c`, when it is at `pc` and has nothing to close. -/
def ready (c : Nat) (pc : Pc) : Option Handler :=
  match w.handlers[c]?, w.owed (.handler c) with
  | some hd, [] => if hd.pc = pc then some hd else none
  | _, _ => none

/-- The lookup after the handshake; without a live lease the connection is closed, which no
other goroutine can tell from a close a little later. -/
def check (c : Nat) (now : Time) : Option World :=
  match w.ready c .authed with
  | none => none
  | some hd =>
    match liveAt now (w.store.get hd.leaseID) with
    | none => some ({ w with live := w.live.erase (.conn c) }.setHandler c { hd with pc := .done })
    | some l => some (w.setHandler c { hd with pc := .checked, served := l.leaseID })

def lockRegister (c : Nat) : Option World :=
  match w.mu, w.ready c .checked with
  | none, some hd => some { w with mu := some ⟨c, hd.leaseID, false, w.store.get hd.leaseID⟩ }
  | _, _ => none

def register (now : Time) : Option World :=
  match w.mu with
  | some ⟨c, id, false, found⟩ =>
    match w.ready c .checked with
    | none => none
    | some hd =>
      match w.leases.registerConn found now c id with
      | none => some ((w.unlock (.handler c) (w.leases, [.conn c])).setHandler c
          { hd with pc := .done })
      | some r => some ((w.unlock (.handler c) r).setHandler c
          { hd with pc := .serving, registered := found.map Lease.token })
  | _ => none

def lockStart (c : Nat) : Option World :=
  match w.mu, w.ready c .serving with
  | none, some hd => some { w with mu := some ⟨c, hd.served, true, w.store.get hd.served⟩ }
  | _, _ => none

def start (now : Time) (portInUse : Int → Bool) : Option World :=
  match w.mu with
  | some ⟨c, id, true, found⟩ =>
    match w.ready c .serving with
    | none => none
    | some hd =>
      match w.leases.startForward found now c id (fun p => w.listening p || portInUse p)
          w.listeners.length with
      | .error .leaseGone => some ((w.unlock (.handler c) (w.leases, [.conn c])).setHandler c
          { hd with pc := .exiting })
      | .error _ => some { w with mu := none }
      | .ok (m, l) => some { w with
          leases := m
          mu := none
          listeners := w.listeners ++ [⟨id, l.token, l.allocatedPort, c⟩]
          live := insert (.listener w.listeners.length) w.live }
  | _ => none

def cancel (c : Nat) : Option World :=
  match w.mu, w.ready c .serving with
  | none, some hd => some (w.unlock (.handler c) (w.leases.cancelForward hd.served c))
  | _, _ => none

/-- The end of `handleConn`, after its request loop: `OnConnClosed`, then the close of the
connection. -/
def leave (c : Nat) : Option World :=
  match w.mu, (w.ready c .serving).or (w.ready c .exiting) with
  | none, some hd =>
    let r := w.leases.onConnClosed hd.leaseID c
    some ((w.unlock (.handler c) (r.1, r.2 ++ [.conn c])).setHandler c { hd with pc := .done })
  | _, _ => none

def step : Act → Option World
  | .create p env => w.create p env
  | .extend id d o => some (w.calls (.extend id d o))
  | .revoke id commits => some (w.revoke id commits)
  | .sweep cutoff =>
    some { w with tasks := w.tasks ++ [.sweeping cutoff (w.store.expiredBefore cutoff)] }
  | .mark k i commits => w.mark k i commits
  | .teardown k => w.teardown k
  | .finish k => w.finish k
  | .close a => w.close a
  | .auth user now => w.auth user now
  | .check c now => w.check c now
  | .lockRegister c => w.lockRegister c
  | .register now => w.register now
  | .lockStart c => w.lockStart c
  | .start now portInUse => w.start now portInUse
  | .cancel c => w.cancel c
  | .leave c => w.leave c
  | .hangup c => some { w with live := w.live.erase (.conn c) }

/-- What a step can do. -/
inductive Step (w : World) : Act → World → Prop where
  | create (p : CreateParams) (env : CreateEnv) :
      (∀ t, mintToken env.rand = some t → t ∉ w.minted) →
      Step w (.create p env) (w.calls (w.createCall p env))
  | extend (id : GoString) (d : Duration) (o : Persist) :
      Step w (.extend id d o) (w.calls (.extend id d o))
  | refuse (id : GoString) (commits : Bool) :
      (w.store.revoke id commits).result ≠ .ok () →
      Step w (.revoke id commits) (w.calls (.revoke id commits))
  | revoke (id : GoString) (commits : Bool) (l : Lease) : w.store.get id = some l →
      (w.store.revoke id commits).result = .ok () →
      Step w (.revoke id commits)
        ({ w with tasks := w.tasks ++ [Task.revoking id l.token] }.calls (.revoke id commits))
  | sweep (cutoff : Time) (todo : List GoString) :
      Step w (.sweep cutoff) { w with tasks := w.tasks ++ [.sweeping cutoff todo] }
  | mark (k i : Nat) (commits : Bool) (id : GoString) (cutoff : Time) (todo : List GoString) :
      w.tasks[k]? = some (.sweeping cutoff todo) →
      Step w (.mark k i commits) ((w.setTask k
        (if (w.store.markExpiredIfBefore id cutoff commits).result.wasExpired
          then .reaping id cutoff (todo.eraseIdx i)
          else .sweeping cutoff (todo.eraseIdx i))).calls (.markExpiredIfBefore id cutoff commits))
  | teardown (k : Nat) (t : Task) (id : GoString) : w.mu = none → w.tasks[k]? = some t →
      w.owed (.task k) = [] → t.tearing = some id →
      Step w (.teardown k) ((w.unlock (.task k) (w.leases.teardown id)).setTask k t.torn)
  | finish (k : Nat) (id token : GoString) : w.tasks[k]? = some (.revoked id token) →
      w.owed (.task k) = [] → Step w (.finish k) (w.setTask k (.returned id token))
  | close (a : Agent) (h : Handle) (hs : List Handle) : w.owed a = h :: hs →
      Step w (.close a) ({ w with live := w.live.erase h }.owes a hs)
  | auth (user : GoString) (now : Time) (l : Lease) : authByToken w.store user now = some l →
      Step w (.auth user now) { w with
        handlers := w.handlers ++ [⟨user, l.leaseID, l.leaseID, w.births.length, none, .authed⟩]
        live := insert (.conn w.handlers.length) w.live }
  | drop (c : Nat) (now : Time) (hd : Handler) : w.ready c .authed = some hd →
      Step w (.check c now)
        ({ w with live := w.live.erase (.conn c) }.setHandler c { hd with pc := .done })
  | check (c : Nat) (now : Time) (hd : Handler) (l : Lease) : w.ready c .authed = some hd →
      w.store.get hd.leaseID = some l →
      Step w (.check c now) (w.setHandler c { hd with pc := .checked, served := l.leaseID })
  | lockRegister (c : Nat) (hd : Handler) : w.mu = none → w.ready c .checked = some hd →
      Step w (.lockRegister c)
        { w with mu := some ⟨c, hd.leaseID, false, w.store.get hd.leaseID⟩ }
  | refuseConn (now : Time) (c : Nat) (id : GoString) (found : Option Lease) (hd : Handler) :
      w.mu = some ⟨c, id, false, found⟩ → w.ready c .checked = some hd →
      Step w (.register now) ((w.unlock (.handler c) (w.leases, [.conn c])).setHandler c
        { hd with pc := .done })
  | register (now : Time) (c : Nat) (id : GoString) (found : Option Lease) (hd : Handler)
      (r : Leases × List Handle) : w.mu = some ⟨c, id, false, found⟩ →
      w.ready c .checked = some hd → w.leases.registerConn found now c id = some r →
      Step w (.register now) ((w.unlock (.handler c) r).setHandler c
        { hd with pc := .serving, registered := found.map Lease.token })
  | lockStart (c : Nat) (hd : Handler) : w.mu = none → w.ready c .serving = some hd →
      Step w (.lockStart c) { w with mu := some ⟨c, hd.served, true, w.store.get hd.served⟩ }
  | gone (now : Time) (portInUse : Int → Bool) (c : Nat) (id : GoString) (found : Option Lease)
      (hd : Handler) : w.mu = some ⟨c, id, true, found⟩ → w.ready c .serving = some hd →
      Step w (.start now portInUse) ((w.unlock (.handler c) (w.leases, [.conn c])).setHandler c
        { hd with pc := .exiting })
  | fail (now : Time) (portInUse : Int → Bool) :
      Step w (.start now portInUse) { w with mu := none }
  | start (now : Time) (portInUse : Int → Bool) (c : Nat) (id : GoString) (found : Option Lease)
      (hd : Handler) (m : Leases) (l : Lease) : w.mu = some ⟨c, id, true, found⟩ →
      w.ready c .serving = some hd →
      w.leases.startForward found now c id (fun p => w.listening p || portInUse p)
        w.listeners.length = .ok (m, l) →
      Step w (.start now portInUse) { w with
        leases := m
        mu := none
        listeners := w.listeners ++ [⟨id, l.token, l.allocatedPort, c⟩]
        live := insert (.listener w.listeners.length) w.live }
  | cancel (c : Nat) (hd : Handler) : w.mu = none → w.ready c .serving = some hd →
      Step w (.cancel c) (w.unlock (.handler c) (w.leases.cancelForward hd.served c))
  | leave (c : Nat) (hd : Handler) (pc : Pc) : w.mu = none → w.ready c pc = some hd →
      Step w (.leave c) ((w.unlock (.handler c) ((w.leases.onConnClosed hd.leaseID c).1,
        (w.leases.onConnClosed hd.leaseID c).2 ++ [.conn c])).setHandler c { hd with pc := .done })
  | hangup (c : Nat) : Step w (.hangup c) { w with live := w.live.erase (.conn c) }

variable {w} {w' : World} {a : Act}

theorem step_cases (h : w.step a = some w') : w.Step a w' := by
  cases a with
  | create p env =>
    simp only [step, create] at h
    split at h
    · rename_i ht
      cases h
      refine .create p env ?_
      intro t hm
      simpa [Call.token, hm] using ht
    · cases h
  | extend id d o =>
    cases h
    exact .extend id d o
  | revoke id commits =>
    simp only [step, revoke] at h
    cases h
    split
    · rename_i l _ hl hr
      exact .revoke id commits l hl hr
    · rename_i hn
      refine .refuse id commits ?_
      intro hr
      cases hl : w.store.get id with
      | none => simp [Store.revoke, Store.remove, hl] at hr
      | some l => exact hn l () hl hr
  | sweep cutoff =>
    cases h
    exact .sweep cutoff _
  | mark k i commits =>
    simp only [step, mark] at h
    split at h
    · rename_i cutoff todo hk _
      split at h
      · cases h
      · rename_i id _
        cases h
        exact .mark k i commits id cutoff todo hk
    · cases h
  | teardown k =>
    simp only [step, teardown] at h
    split at h
    · rename_i t hmu hk ho
      split at h
      · cases h
      · rename_i id ht
        cases h
        exact .teardown k t id hmu hk ho ht
    · cases h
  | finish k =>
    simp only [step, finish] at h
    split at h
    · rename_i id token hk ho
      cases h
      exact .finish k id token hk ho
    · cases h
  | close a =>
    simp only [step, close] at h
    split at h
    · cases h
    · rename_i x hs ho
      cases h
      exact .close a x hs ho
  | auth user now =>
    simp only [step, auth] at h
    split at h
    · cases h
    · rename_i l hl
      cases h
      exact .auth user now l hl
  | check c now =>
    simp only [step, check] at h
    split at h
    · cases h
    · rename_i hd hr
      split at h
      · cases h
        exact .drop c now hd hr
      · rename_i l hl
        cases h
        exact .check c now hd l hr (Option.filter_eq_some_iff.1 hl).1
  | lockRegister c =>
    simp only [step, lockRegister] at h
    split at h
    · rename_i hd hmu hr
      cases h
      exact .lockRegister c hd hmu hr
    · cases h
  | register now =>
    simp only [step, register] at h
    split at h
    · rename_i c id found hmu
      split at h
      · cases h
      · rename_i hd hr
        split at h
        · cases h
          exact .refuseConn now c id found hd hmu hr
        · rename_i r hreg
          cases h
          exact .register now c id found hd r hmu hr hreg
    · cases h
  | lockStart c =>
    simp only [step, lockStart] at h
    split at h
    · rename_i hd hmu hr
      cases h
      exact .lockStart c hd hmu hr
    · cases h
  | start now portInUse =>
    simp only [step, start] at h
    split at h
    · rename_i c id found hmu
      split at h
      · cases h
      · rename_i hd hr
        split at h
        · cases h
          exact .gone now portInUse c id found hd hmu hr
        · cases h
          exact .fail now portInUse
        · rename_i m l hst
          cases h
          exact .start now portInUse c id found hd m l hmu hr hst
    · cases h
  | cancel c =>
    simp only [step, cancel] at h
    split at h
    · rename_i hd hmu hr
      cases h
      exact .cancel c hd hmu hr
    · cases h
  | leave c =>
    simp only [step, leave] at h
    split at h
    · rename_i hd hmu hr
      cases h
      rcases Option.or_eq_some_iff.1 hr with hr | ⟨_, hr⟩
      · exact .leave c hd .serving hmu hr
      · exact .leave c hd .exiting hmu hr
    · cases h
  | hangup c =>
    cases h
    exact .hangup c

end World

/-- The daemon when it starts to serve a store. -/
def World.boot (s : Store) (minted : List GoString) : World where
  store := s
  minted := minted
  births := []
  leases := ∅
  mu := none
  live := ∅
  listeners := []
  handlers := []
  tasks := []
  owed := fun _ => []

/-- A store that some earlier history of its database file has led to. -/
def Booted (s : Store) (minted : List GoString) : Prop :=
  ∃ es : List Event, (∀ e ∈ es, e.ValidID) ∧ (Event.mints es).Nodup ∧
    ((Machine.down DB.empty).run es).1 = .up s ∧ minted = Event.mints es

/-- The worlds a daemon reaches when every step meets the condition. -/
inductive Reach (ok : World → Act → Prop) : World → Prop where
  | boot {s : Store} {minted : List GoString} : Booted s minted → Reach ok (World.boot s minted)
  | step {w w' : World} {a : Act} : Reach ok w → ok w a → w.step a = some w' → Reach ok w'

end HyruleProxy
