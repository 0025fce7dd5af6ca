import HyruleProxy.Isolation

namespace HyruleProxy
set_option autoImplicit true

namespace World

variable {w : World} {c n : Nat} {id : GoString} {now : Time} {l : Lease} {ln : Listener}
  {port : Int}

/-- `StartForward` has passed its checks for the registered connection and is about to bind the
port of the lease. -/
structure Binding (w : World) (c : Nat) (id : GoString) (now : Time) (l : Lease) : Prop where
  locked : w.mu = some ⟨c, id, true, some l⟩
  unexpired : now < l.expiresAt
  entry : w.leases[id]? = some ⟨c, none⟩

/-- The listener is open and some `StartForward` of the lease has bound it. -/
def OpenFor (w : World) (id : GoString) (n : Nat) : Prop :=
  .listener n ∈ w.live ∧ ∃ ln : Listener, w.listeners[n]? = some ln ∧ ln.lease = id

/-- No listener of the lease is open any more, and what keeps the port from being bound is
another program or a listener of another lease. -/
structure HandsOver (w : World) (c : Nat) (id : GoString) (now : Time) (l : Lease) : Prop where
  closed : ∀ n, ¬ w.OpenFor id n
  foreign : ∀ (portInUse : Int → Bool) (e : ForwardError),
    w.leases.startForward (some l) now c id (fun p => w.listening p || portInUse p)
      w.listeners.length = .error e →
    portInUse l.allocatedPort = true ∨ ∃ (n : Nat) (ln : Listener), .listener n ∈ w.live ∧
      w.listeners[n]? = some ln ∧ ln.port = l.allocatedPort ∧ ln.lease ≠ id

/-- A goroutine has taken a listener of the lease out of its entry and not closed it yet. -/
def Detached (w : World) (id : GoString) : Prop := ∃ n, w.OpenFor id n ∧ w.Owed (.listener n)

theorem listening_eq_true (h : w.listening port = true) :
    ∃ (n : Nat) (ln : Listener), .listener n ∈ w.live ∧ w.listeners[n]? = some ln ∧
      ln.port = port := by
  rw [listening, List.any_eq_true] at h
  obtain ⟨⟨ln, n⟩, hmem, hd⟩ := h
  obtain ⟨hp, hlive⟩ := of_decide_eq_true hd
  exact ⟨n, ln, hlive, List.mem_zipIdx_iff_getElem?.1 hmem, hp⟩

theorem Binding.inUse (hb : w.Binding c id now l) {inUse : Int → Bool} {e : ForwardError}
    (h : w.leases.startForward (some l) now c id inUse n = .error e) :
    inUse l.allocatedPort = true := by
  have hl : liveAt now (some l) = some l := liveAt_eq_some.2 ⟨rfl, hb.unexpired⟩
  simp only [Leases.startForward, hl, hb.entry, ne_eq, not_true_eq_false, if_false] at h
  split at h
  · assumption
  · cases h

theorem OpenFor.detached (hi : w.Inv) (ho : w.OpenFor id n)
    (hn : ∀ st : LeaseState, w.leases[id]? = some st → st.forward ≠ some n) : w.Detached id := by
  refine ⟨n, ho, ?_⟩
  obtain ⟨hlive, ln, hln, hid⟩ := ho
  rcases hi.listener n hlive with ⟨i, st, hst, hm⟩ | how
  · rcases Leases.mem_handles.1 hm with ⟨_, hf, ⟨⟩⟩ | ⟨⟨⟩⟩
    obtain ⟨ln', hln', hown⟩ := hi.bound i st n hst hf
    rw [hln] at hln'
    cases hln'
    rw [← hown, hid] at hst
    exact absurd hf (hn st hst)
  · exact how

/-- A bind meets no listener of its own lease just when no goroutine still has one to close. -/
theorem handsOver_iff_not_detached (h : Reach (fun _ _ => True) w) (hb : w.Binding c id now l) :
    w.HandsOver c id now l ↔ ¬ w.Detached id := by
  constructor
  · rintro hh ⟨n, ho, _⟩
    exact hh.closed n ho
  · intro hd
    have hno : ∀ n, ¬ w.OpenFor id n := by
      intro n ho
      apply hd
      apply ho.detached h.inv
      intro st hst
      rw [hb.entry] at hst
      cases hst
      exact Option.some_ne_none n ∘ Eq.symm
    refine ⟨hno, ?_⟩
    intro portInUse e he
    rcases Bool.or_eq_true_iff.1 (hb.inUse he) with hl | hp
    · obtain ⟨n, ln, hlive, hln, hport⟩ := listening_eq_true hl
      exact .inr ⟨n, ln, hlive, hln, hport, fun hid => hno n ⟨hlive, ln, hln, hid⟩⟩
    · exact .inl hp

def handedLease : Lease :=
  Store.newLease ⟨lit "a", 3600, []⟩ (sampleToken 0) 20000 0

/-- The second connection has closed the listener it took over before it binds the port. -/
theorem handsOver_after_takeover :
    ∃ w, Reach (fun _ _ => True) w ∧ w.listeners.length = 1 ∧
      w.Binding 1 (lit "a") 1 handedLease ∧ w.HandsOver 1 (lit "a") 1 handedLease := by
  have hb : Reach (fun _ _ => True) (World.boot sampleStore []) := .boot booted_sampleStore
  obtain ⟨w, hr, hlen, hlive, hmu, hst⟩ := hb.of_exec (fun _ _ => true)
    ([sampleLease (lit "a") 0] ++ sampleConnect 0 0 ++ sampleStart 0 ++ sampleConnect 1 0 ++
      [.close (.handler 1), .close (.handler 1), .lockStart 1])
    (fun w => w.listeners.length = 1 ∧ Handle.listener 0 ∉ w.live ∧
      w.mu = some ⟨1, lit "a", true, some handedLease⟩ ∧
      w.leases[lit "a"]? = some ⟨1, none⟩) (fun _ _ _ _ => trivial) (by decide)
  have hbind : w.Binding 1 (lit "a") 1 handedLease := ⟨hmu, by decide, hst⟩
  refine ⟨w, hr, hlen, hbind, (handsOver_iff_not_detached hr hbind).2 ?_⟩
  rintro ⟨n, ⟨hn, ln, hln, _⟩, _⟩
  have hlt := (List.getElem?_eq_some_iff.1 hln).1
  rw [hlen, Nat.lt_one_iff] at hlt
  rw [hlt] at hn
  exact hlive hn

/-- The first connection has left and not closed its listener yet when the second one, which
found no entry to take over, binds the port. -/
theorem bind_before_close :
    ∃ w, Reach (fun _ _ => True) w ∧ w.Binding 1 (lit "a") 1 handedLease ∧
      w.leases.startForward (some handedLease) 1 1 (lit "a") w.listening w.listeners.length =
        .error (.bind 20000) ∧ ¬ w.HandsOver 1 (lit "a") 1 handedLease := by
  have hb : Reach (fun _ _ => True) (World.boot sampleStore []) := .boot booted_sampleStore
  obtain ⟨w, hr, hlive, hln, hmu, hst, hp⟩ := hb.of_exec (fun _ _ => true)
    ([sampleLease (lit "a") 0] ++ sampleConnect 0 0 ++ sampleStart 0 ++ [.leave 0] ++
      sampleConnect 1 0 ++ [.lockStart 1])
    (fun w => Handle.listener 0 ∈ w.live ∧ w.listeners[0]?.map Listener.lease = some (lit "a") ∧
      w.mu = some ⟨1, lit "a", true, some handedLease⟩ ∧
      w.leases[lit "a"]? = some ⟨1, none⟩ ∧ w.listening 20000 = true)
    (fun _ _ _ _ => trivial) (by decide)
  refine ⟨w, hr, ⟨hmu, by decide, hst⟩, ?_, ?_⟩
  · have hl : liveAt 1 (some handedLease) = some handedLease := by decide
    have hport : handedLease.allocatedPort = 20000 := rfl
    simp only [Leases.startForward, hl, hst, hport, hp, ne_eq, not_true_eq_false, if_false,
      if_true]
  · intro hh
    obtain ⟨ln, hln, hid⟩ := Option.map_eq_some_iff.1 hln
    exact hh.closed 0 ⟨hlive, ln, hln, hid⟩

end World

end HyruleProxy
