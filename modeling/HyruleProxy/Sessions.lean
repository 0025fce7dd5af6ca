import HyruleProxy.DaemonInvariant

namespace HyruleProxy
set_option autoImplicit true

/-- A `leaseState` with its counters. -/
structure Session extends LeaseState where
  visitors : Int
  bytesIn : Int
  bytesOut : Int

/-- The socket of a visitor or the SSH channel opened for it, by the number of the visitor. -/
inductive Wire where
  | socket (i : Nat)
  | channel (i : Nat)
  deriving DecidableEq

/-- How far `forward.close` has come: not called, after the close of the listener, inside its
`vmu` section with some wires left to close, and at its end. -/
inductive Closing where
  | pending
  | unbound
  | closing (todo : List Wire)
  | done
  deriving DecidableEq

/-- A `forward`. The map has the number of a visitor for its socket, and for its channel. -/
structure Forward where
  session : Nat
  visitors : GoMap Nat (Option Nat)
  closed : Bool
  progress : Closing

/-- The next thing `handleVisitor` does: the allowlist check, `trackVisitor`, the two halves of
an attempt of `reserveVisitorSlot`, `OpenChannel`, `setVisitorChannel`, the copies and the wait
for them, and then the deferred calls. -/
inductive Stage where
  | accepted
  | admitted
  | loading
  | swapping (cur : Int)
  | opening
  | recording
  | copying (inDone outDone : Bool)
  | closingChannel
  | releasing
  | untracking
  | closingSocket
  | returned
  deriving DecidableEq

/-- A run of `handleVisitor`. `slot` records that it has reserved a slot and not released it. -/
structure Visitor where
  session : Nat
  forward : Nat
  stage : Stage
  slot : Bool

/-- What a run of `handleVisitor` does next, with the answers it gets: the verdict on the source
address, the outcome of `OpenChannel`, and how much a copy has moved when it ends. -/
inductive Move where
  | screen (allowed : Bool)
  | track
  | load
  | swap
  | openChannel (opened : Bool)
  | record
  | copied (inward : Bool) (n : Nat)
  | join
  | closeChannel
  | release
  | untrack
  | closeSocket

namespace Forward

variable (f : Forward)

/-- Whether `close` is inside its `vmu` section. -/
def locked : Bool :=
  match f.progress with
  | .closing _ => true
  | _ => false

def trackVisitor (vc : Nat) : Option Forward :=
  if f.closed then none else some { f with visitors := f.visitors.insert vc none }

def setVisitorChannel (vc ch : Nat) : Option Forward :=
  if f.closed then none
  else if f.visitors[vc]?.isNone then none
  else some { f with visitors := f.visitors.insert vc (some ch) }

def untrackVisitor (vc : Nat) : Forward := { f with visitors := f.visitors.erase vc }

/-- The sockets and channels in the map. -/
def wires : List Wire :=
  f.visitors.toList.flatMap fun (vc, ch) => .socket vc :: (ch.map Wire.channel).toList

variable {f} {f' : Forward} {vc ch : Nat}

theorem trackVisitor_eq_none (h : f.trackVisitor vc = none) : f.closed = true := by
  rw [trackVisitor] at h
  split at h
  · assumption
  · cases h

theorem trackVisitor_eq_some (h : f.trackVisitor vc = some f') :
    f.closed = false ∧ f' = { f with visitors := f.visitors.insert vc none } := by
  rw [trackVisitor] at h
  split at h
  · cases h
  · rename_i hc
    cases h
    exact ⟨eq_false_of_ne_true hc, rfl⟩

theorem setVisitorChannel_eq_none (h : f.setVisitorChannel vc ch = none) :
    f.closed = true ∨ f.visitors[vc]? = none := by
  rw [setVisitorChannel] at h
  split at h
  · exact .inl ‹_›
  · split at h
    · exact .inr (Option.isNone_iff_eq_none.1 ‹_›)
    · cases h

theorem setVisitorChannel_eq_some (h : f.setVisitorChannel vc ch = some f') :
    f.closed = false ∧ f' = { f with visitors := f.visitors.insert vc (some ch) } := by
  rw [setVisitorChannel] at h
  split at h
  · cases h
  · rename_i hc
    split at h
    · cases h
    · cases h
      exact ⟨eq_false_of_ne_true hc, rfl⟩

end Forward

/-- The manager with the objects behind its pointers: entries point into `sessions`, sessions
into `forwards`. `live` are the open sockets and channels. -/
structure Manager where
  leases : GoMap GoString Nat
  sessions : List Session
  forwards : List Forward
  visitors : List Visitor
  live : Finset Wire

namespace Manager

def empty : Manager := ⟨∅, [], [], [], ∅⟩

variable (m : Manager)

def entry (id : GoString) : Option (Nat × Session) :=
  m.leases[id]?.bind fun p => (m.sessions[p]?).map fun st => (p, st)

def setSession (p : Nat) (st : Session) : Manager := { m with sessions := m.sessions.set p st }

def setForward (k : Nat) (f : Forward) : Manager := { m with forwards := m.forwards.set k f }

def goto (i : Nat) (v : Visitor) (stage : Stage) : Manager :=
  { m with visitors := m.visitors.set i { v with stage := stage } }

def registerConn (found : Option Lease) (now : Time) (conn : Nat) (id : GoString) :
    Option (Manager × List Handle) :=
  match liveAt now found with
  | none => none
  | some _ =>
    let owed := match m.entry id with
      | none => []
      | some (_, old) =>
        if old.conn = conn then (old.forward.map Handle.listener).toList else old.handles
    some ({ m with
      leases := m.leases.insert id m.sessions.length
      sessions := m.sessions ++ [⟨⟨conn, none⟩, 0, 0, 0⟩] }, owed)

def startForward (found : Option Lease) (now : Time) (conn : Nat) (id : GoString)
    (inUse : Int → Bool) : Except ForwardError (Manager × Lease) :=
  match liveAt now found with
  | none => .error .leaseGone
  | some l =>
    match m.entry id with
    | none => .error .leaseGone
    | some (p, st) =>
      if st.conn ≠ conn then .error .leaseGone
      else if st.forward ≠ none then .error .duplicateForward
      else if inUse l.allocatedPort then .error (.bind l.allocatedPort)
      else .ok ({ m.setSession p { st with forward := some m.forwards.length } with
        forwards := m.forwards ++ [⟨p, ∅, false, .pending⟩] }, l)

def teardown (id : GoString) : Manager × List Handle :=
  match m.entry id with
  | none => (m, [])
  | some (_, st) => ({ m with leases := m.leases.erase id }, st.handles)

def cancelForward (id : GoString) (conn : Nat) : Manager × List Handle :=
  match m.entry id with
  | none => (m, [])
  | some (p, st) =>
    match st.forward with
    | none => (m, [])
    | some n =>
      if st.conn = conn then (m.setSession p { st with forward := none }, [.listener n])
      else (m, [])

def onConnClosed (id : GoString) (conn : Nat) : Manager × List Handle :=
  match m.entry id with
  | none => (m, [])
  | some (_, st) =>
    if st.conn = conn
    then ({ m with leases := m.leases.erase id }, (st.forward.map Handle.listener).toList)
    else (m, [])

/-- One step of a run of `handleVisitor`. The `vmu` sections wait while `close` is in its own. -/
def handleVisitor (cap : Int) (i : Nat) (move : Move) : Option Manager :=
  match m.visitors[i]? with
  | none => none
  | some v =>
    match m.sessions[v.session]?, m.forwards[v.forward]? with
    | some st, some f =>
      match v.stage, move with
      | .accepted, .screen allowed =>
        some (m.goto i v (if allowed then .admitted else .closingSocket))
      | .admitted, .track =>
        if f.locked then none
        else match f.trackVisitor i with
          | none => some (m.goto i v .closingSocket)
          | some f' => some ((m.setForward v.forward f').goto i v .loading)
      | .loading, .load =>
        some (m.goto i v (if cap ≤ st.visitors then .untracking else .swapping st.visitors))
      | .swapping cur, .swap =>
        if st.visitors = cur then
          some ((m.setSession v.session { st with visitors := cur + 1 }).goto i
            { v with slot := true } .opening)
        else some (m.goto i v .loading)
      | .opening, .openChannel opened =>
        if opened then some ({ m with live := insert (Wire.channel i) m.live }.goto i v .recording)
        else some (m.goto i v .releasing)
      | .recording, .record =>
        if f.locked then none
        else match f.setVisitorChannel i i with
          | none => some (m.goto i v .closingChannel)
          | some f' => some ((m.setForward v.forward f').goto i v (.copying false false))
      | .copying false outDone, .copied true n =>
        some ((m.setSession v.session { st with bytesIn := st.bytesIn + n }).goto i v
          (.copying true outDone))
      | .copying inDone false, .copied false n =>
        some ((m.setSession v.session { st with bytesOut := st.bytesOut + n }).goto i v
          (.copying inDone true))
      | .copying true true, .join => some (m.goto i v .closingChannel)
      | .closingChannel, .closeChannel =>
        some ({ m with live := m.live.erase (.channel i) }.goto i v .releasing)
      | .releasing, .release =>
        some ((m.setSession v.session { st with visitors := st.visitors - 1 }).goto i
          { v with slot := false } .untracking)
      | .untracking, .untrack =>
        if f.locked then none
        else some ((m.setForward v.forward (f.untrackVisitor i)).goto i v .closingSocket)
      | .closingSocket, .closeSocket =>
        some ({ m with live := m.live.erase (.socket i) }.goto i v .returned)
      | _, _ => none
    | _, _ => none

/-- What a step of the run `i` of `handleVisitor` can do. -/
inductive Visits (cap : Int) (m : Manager) (i : Nat) (v : Visitor) (st : Session) (f : Forward) :
    Move → Manager → Prop where
  | screen (allowed : Bool) : v.stage = .accepted → Visits cap m i v st f (.screen allowed)
      (m.goto i v (if allowed then .admitted else .closingSocket))
  | late : v.stage = .admitted → f.closed = true →
      Visits cap m i v st f .track (m.goto i v .closingSocket)
  | track : v.stage = .admitted → f.locked = false → f.closed = false →
      Visits cap m i v st f .track
        ((m.setForward v.forward { f with visitors := f.visitors.insert i none }).goto i v .loading)
  | full : v.stage = .loading → cap ≤ st.visitors →
      Visits cap m i v st f .load (m.goto i v .untracking)
  | load : v.stage = .loading → st.visitors < cap →
      Visits cap m i v st f .load (m.goto i v (.swapping st.visitors))
  | lose (cur : Int) : v.stage = .swapping cur → st.visitors ≠ cur →
      Visits cap m i v st f .swap (m.goto i v .loading)
  | reserve : v.stage = .swapping st.visitors →
      Visits cap m i v st f .swap
        ((m.setSession v.session { st with visitors := st.visitors + 1 }).goto i
          { v with slot := true } .opening)
  | refuse : v.stage = .opening →
      Visits cap m i v st f (.openChannel false) (m.goto i v .releasing)
  | openChannel : v.stage = .opening → Visits cap m i v st f (.openChannel true)
      ({ m with live := insert (Wire.channel i) m.live }.goto i v .recording)
  | abort : v.stage = .recording → f.closed = true ∨ f.visitors[i]? = none →
      Visits cap m i v st f .record (m.goto i v .closingChannel)
  | record : v.stage = .recording → f.locked = false → f.closed = false →
      Visits cap m i v st f .record
        ((m.setForward v.forward { f with visitors := f.visitors.insert i (some i) }).goto i v
          (.copying false false))
  | copiedIn (outDone : Bool) (n : Nat) : v.stage = .copying false outDone →
      Visits cap m i v st f (.copied true n)
        ((m.setSession v.session { st with bytesIn := st.bytesIn + n }).goto i v
          (.copying true outDone))
  | copiedOut (inDone : Bool) (n : Nat) : v.stage = .copying inDone false →
      Visits cap m i v st f (.copied false n)
        ((m.setSession v.session { st with bytesOut := st.bytesOut + n }).goto i v
          (.copying inDone true))
  | join : v.stage = .copying true true →
      Visits cap m i v st f .join (m.goto i v .closingChannel)
  | closeChannel : v.stage = .closingChannel → Visits cap m i v st f .closeChannel
      ({ m with live := m.live.erase (.channel i) }.goto i v .releasing)
  | release : v.stage = .releasing → Visits cap m i v st f .release
      ((m.setSession v.session { st with visitors := st.visitors - 1 }).goto i
        { v with slot := false } .untracking)
  | untrack : v.stage = .untracking → f.locked = false → Visits cap m i v st f .untrack
      ((m.setForward v.forward (f.untrackVisitor i)).goto i v .closingSocket)
  | closeSocket : v.stage = .closingSocket → Visits cap m i v st f .closeSocket
      ({ m with live := m.live.erase (.socket i) }.goto i v .returned)

theorem handleVisitor_cases {m m' : Manager} (h : m.handleVisitor cap i move = some m') :
    ∃ v st f, m.visitors[i]? = some v ∧ m.sessions[v.session]? = some st ∧
      m.forwards[v.forward]? = some f ∧ Visits cap m i v st f move m' := by
  rw [handleVisitor] at h
  split at h
  · cases h
  · rename_i v hv
    split at h
    · rename_i st f hst hf
      refine ⟨v, st, f, hv, hst, hf, ?_⟩
      split at h
      · rename_i allowed hs
        cases h
        exact .screen allowed hs
      · rename_i hs
        split at h
        · cases h
        · rename_i hl
          split at h
          · rename_i ht
            cases h
            exact .late hs (Forward.trackVisitor_eq_none ht)
          · rename_i f' ht
            cases h
            obtain ⟨hc, rfl⟩ := Forward.trackVisitor_eq_some ht
            exact .track hs (eq_false_of_ne_true hl) hc
      · rename_i hs
        cases h
        split
        · rename_i hm
          exact .full hs hm
        · rename_i hm
          exact .load hs (not_le.1 hm)
      · rename_i cur hs
        split at h
        · rename_i he
          cases h
          subst he
          exact .reserve hs
        · rename_i he
          cases h
          exact .lose cur hs he
      · rename_i opened hs
        split at h
        · rename_i ho
          cases h
          subst ho
          exact .openChannel hs
        · rename_i ho
          cases h
          rw [eq_false_of_ne_true ho]
          exact .refuse hs
      · rename_i hs
        split at h
        · cases h
        · rename_i hl
          split at h
          · rename_i ht
            cases h
            exact .abort hs (Forward.setVisitorChannel_eq_none ht)
          · rename_i f' ht
            cases h
            obtain ⟨hc, rfl⟩ := Forward.setVisitorChannel_eq_some ht
            exact .record hs (eq_false_of_ne_true hl) hc
      · rename_i outDone n hs
        cases h
        exact .copiedIn outDone n hs
      · rename_i inDone n hs
        cases h
        exact .copiedOut inDone n hs
      · rename_i hs
        cases h
        exact .join hs
      · rename_i hs
        cases h
        exact .closeChannel hs
      · rename_i hs
        cases h
        exact .release hs
      · rename_i hs
        split at h
        · cases h
        · rename_i hl
          cases h
          exact .untrack hs (eq_false_of_ne_true hl)
      · rename_i hs
        cases h
        exact .closeSocket hs
      · cases h
    · cases h

/-- A connection that `acceptVisitors` has accepted. -/
def accept (k : Nat) : Option Manager :=
  match m.forwards[k]? with
  | none => none
  | some f =>
    match f.progress with
    | .pending => some { m with
        visitors := m.visitors ++ [⟨f.session, k, .accepted, false⟩]
        live := insert (.socket m.visitors.length) m.live }
    | _ => none

/-- One step of the only run of the body of `forward.close`; `i` chooses what it closes next. -/
def close (k i : Nat) : Option Manager :=
  match m.forwards[k]? with
  | none => none
  | some f =>
    match f.progress with
    | .pending => some (m.setForward k { f with progress := .unbound })
    | .unbound => some (m.setForward k { f with closed := true, progress := .closing f.wires })
    | .closing [] => some (m.setForward k { f with visitors := ∅, progress := .done })
    | .closing (x :: xs) =>
      match (x :: xs)[i]? with
      | none => none
      | some w => some ({ m with live := m.live.erase w }.setForward k
          { f with progress := .closing ((x :: xs).eraseIdx i) })
    | .done => none

/-- What a step of `forward.close` can do. -/
inductive Closes (m : Manager) (k : Nat) (f : Forward) : Manager → Prop where
  | unbind : f.progress = .pending → Closes m k f (m.setForward k { f with progress := .unbound })
  | lock : f.progress = .unbound →
      Closes m k f (m.setForward k { f with closed := true, progress := .closing f.wires })
  | wire (todo : List Wire) (j : Nat) (x : Wire) : f.progress = .closing todo →
      todo[j]? = some x → Closes m k f ({ m with live := m.live.erase x }.setForward k
        { f with progress := .closing (todo.eraseIdx j) })
  | unlock : f.progress = .closing [] →
      Closes m k f (m.setForward k { f with visitors := ∅, progress := .done })

theorem close_cases {m m' : Manager} (h : m.close k j = some m') :
    ∃ f, m.forwards[k]? = some f ∧ Closes m k f m' := by
  rw [close] at h
  split at h
  · cases h
  · rename_i f hf
    refine ⟨f, hf, ?_⟩
    split at h
    · rename_i hp
      cases h
      exact .unbind hp
    · rename_i hp
      cases h
      exact .lock hp
    · rename_i hp
      cases h
      exact .unlock hp
    · rename_i x xs hp
      split at h
      · cases h
      · rename_i w hw
        cases h
        exact .wire (x :: xs) j w hp hw
    · cases h

theorem accept_cases {m m' : Manager} (h : m.accept k = some m') :
    ∃ f, m.forwards[k]? = some f ∧ f.progress = .pending ∧ m' = { m with
      visitors := m.visitors ++ [⟨f.session, k, .accepted, false⟩]
      live := insert (.socket m.visitors.length) m.live } := by
  rw [accept] at h
  split at h
  · cases h
  · rename_i f hf
    split at h
    · rename_i hp
      cases h
      exact ⟨f, hf, hp, rfl⟩
    · cases h

end Manager

inductive Op where
  | registerConn (found : Option Lease) (now : Time) (conn : Nat) (id : GoString)
  | startForward (found : Option Lease) (now : Time) (conn : Nat) (id : GoString)
      (inUse : Int → Bool)
  | teardown (id : GoString)
  | cancelForward (id : GoString) (conn : Nat)
  | onConnClosed (id : GoString) (conn : Nat)
  | accept (k : Nat)
  | visit (i : Nat) (move : Move)
  | close (k i : Nat)

/-- A critical section of the manager or of a forward, or a step of a visitor. -/
def Manager.step (cap : Int) (m : Manager) : Op → Option Manager
  | .registerConn found now conn id =>
    match m.registerConn found now conn id with
    | none => some m
    | some r => some r.1
  | .startForward found now conn id inUse =>
    match m.startForward found now conn id inUse with
    | .error _ => some m
    | .ok r => some r.1
  | .teardown id => some (m.teardown id).1
  | .cancelForward id conn => some (m.cancelForward id conn).1
  | .onConnClosed id conn => some (m.onConnClosed id conn).1
  | .accept k => m.accept k
  | .visit i move => m.handleVisitor cap i move
  | .close k i => m.close k i

namespace Manager

/-- What a step can do to the sessions, the forwards and the visitors. -/
inductive Step (cap : Int) (m : Manager) : Op → Manager → Prop where
  | entries (op : Op) (leases : GoMap GoString Nat) : Step cap m op { m with leases := leases }
  | register (op : Op) (leases : GoMap GoString Nat) (c : Nat) : Step cap m op { m with
      leases := leases
      sessions := m.sessions ++ [⟨⟨c, none⟩, 0, 0, 0⟩] }
  | cancel (op : Op) (p : Nat) (st : Session) : m.sessions[p]? = some st →
      Step cap m op (m.setSession p { st with forward := none })
  | start (op : Op) (p : Nat) (st : Session) : m.sessions[p]? = some st →
      Step cap m op { m.setSession p { st with forward := some m.forwards.length } with
        forwards := m.forwards ++ [⟨p, ∅, false, .pending⟩] }
  | accept (k : Nat) (f : Forward) : m.forwards[k]? = some f → f.progress = .pending →
      Step cap m (.accept k) { m with
        visitors := m.visitors ++ [⟨f.session, k, .accepted, false⟩]
        live := insert (.socket m.visitors.length) m.live }
  | visit (i : Nat) (move : Move) (v : Visitor) (st : Session) (f : Forward) (m' : Manager) :
      m.visitors[i]? = some v → m.sessions[v.session]? = some st →
      m.forwards[v.forward]? = some f → Visits cap m i v st f move m' →
      Step cap m (.visit i move) m'
  | close (k j : Nat) (f : Forward) (m' : Manager) : m.forwards[k]? = some f → Closes m k f m' →
      Step cap m (.close k j) m'

variable {m m' : Manager} {cap : Int} {op : Op} {id : GoString} {p c : Nat} {st : Session}

theorem entry_eq_some : m.entry id = some (p, st) ↔
    m.leases[id]? = some p ∧ m.sessions[p]? = some st := by
  simp only [entry, Option.bind_eq_some_iff, Option.map_eq_some_iff, Prod.mk.injEq]
  constructor
  · rintro ⟨q, hq, st', hst, rfl, rfl⟩
    exact ⟨hq, hst⟩
  · rintro ⟨hp, hst⟩
    exact ⟨p, hp, st, hst, rfl, rfl⟩

theorem startForward_eq_ok {r : Manager × Lease} {inUse : Int → Bool}
    (h : m.startForward found now c id inUse = .ok r) :
    ∃ p st, m.entry id = some (p, st) ∧ r.1 =
      { m.setSession p { st with forward := some m.forwards.length } with
        forwards := m.forwards ++ [⟨p, ∅, false, .pending⟩] } := by
  rw [startForward] at h
  split at h
  · cases h
  · split at h
    · cases h
    · rename_i p st he
      split at h
      · cases h
      · split at h
        · cases h
        · split at h
          · cases h
          · cases h
            exact ⟨p, st, he, rfl⟩

theorem step_cases (h : m.step cap op = some m') : m.Step cap op m' := by
  cases op with
  | registerConn found now c id =>
    simp only [step] at h
    split at h
    · cases h
      exact .entries _ m.leases
    · rename_i r hr
      cases h
      rw [registerConn] at hr
      split at hr
      · cases hr
      · cases hr
        exact .register _ _ c
  | startForward found now c id inUse =>
    simp only [step] at h
    split at h
    · cases h
      exact .entries _ m.leases
    · rename_i r hr
      cases h
      obtain ⟨p, st, he, hr⟩ := startForward_eq_ok hr
      rw [hr]
      exact .start _ p st (entry_eq_some.1 he).2
  | teardown id =>
    simp only [step, teardown] at h
    split at h
    · cases h
      exact .entries _ m.leases
    · cases h
      exact .entries _ _
  | cancelForward id c =>
    simp only [step, cancelForward] at h
    split at h
    · cases h
      exact .entries _ m.leases
    · rename_i p st he
      split at h
      · cases h
        exact .entries _ m.leases
      · split at h
        · cases h
          exact .cancel _ p st (entry_eq_some.1 he).2
        · cases h
          exact .entries _ m.leases
  | onConnClosed id c =>
    simp only [step, onConnClosed] at h
    split at h
    · cases h
      exact .entries _ m.leases
    · split at h
      · cases h
        exact .entries _ _
      · cases h
        exact .entries _ m.leases
  | accept k =>
    obtain ⟨f, hf, hp, rfl⟩ := accept_cases h
    exact .accept k f hf hp
  | visit i move =>
    obtain ⟨v, st, f, hv, hst, hf, hvis⟩ := handleVisitor_cases h
    exact .visit i move v st f m' hv hst hf hvis
  | close k j =>
    obtain ⟨f, hf, hcl⟩ := close_cases h
    exact .close k j f m' hf hcl

end Manager

/-- The operations of a run from the empty manager, and where it ends. -/
inductive Manager.Run (cap : Int) : List Op → Manager → Prop where
  | nil : Run cap [] Manager.empty
  | snoc : Run cap ops m → m.step cap op = some m' → Run cap (ops ++ [op]) m'

def Manager.exec (cap : Int) : Manager → List Op → Option Manager
  | m, [] => some m
  | m, op :: ops => (m.step cap op).bind fun m' => m'.exec cap ops

theorem Manager.Run.exec (h : Run cap ops m) (he : m.exec cap more = some m') :
    Run cap (ops ++ more) m' := by
  induction more generalizing m ops with
  | nil =>
    cases he
    rwa [List.append_nil]
  | cons op more ih =>
    obtain ⟨m₁, hst, he⟩ := Option.bind_eq_some_iff.1 he
    have hr := ih (h.snoc hst) he
    rwa [List.append_assoc, List.singleton_append] at hr

theorem Manager.Run.of_exec (cap : Int) (ops : List Op) (P : Manager → Prop) [DecidablePred P]
    (he : (Manager.empty.exec cap ops).any (fun m => decide (P m)) = true) :
    ∃ m, Run cap ops m ∧ P m := by
  cases hx : Manager.empty.exec cap ops with
  | none =>
    rw [hx] at he
    cases he
  | some m =>
    rw [hx] at he
    exact ⟨m, Run.exec .nil hx, of_decide_eq_true he⟩

/-- A lease that has not expired at time 1. -/
def Manager.sampleLease : Lease := Store.newLease ⟨lit "a", 3600, []⟩ [] 20000 0

def Manager.sampleRegister (c : Nat) : Op := .registerConn (some sampleLease) 1 c (lit "a")

def Manager.sampleForward (c : Nat) : Op :=
  .startForward (some sampleLease) 1 c (lit "a") fun _ => false

end HyruleProxy
