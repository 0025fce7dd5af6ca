import HyruleProxy.DaemonRun

namespace HyruleProxy
set_option autoImplicit true

namespace World

variable {w w' : World} {a : Act} {n : Nat} {ln : Listener} {port : Int}

theorem listening_eq_false (h : w.listening port = false) (hn : w.listeners[n]? = some ln)
    (hlive : .listener n ∈ w.live) : ln.port ≠ port := by
  rintro rfl
  rw [listening, List.any_eq_false] at h
  exact h (ln, n) (List.mem_zipIdx_iff_getElem?.2 hn) (by simp [hlive])

/-- Tenant isolation: while the forward of a lease is open on a port, no other lease of the
store has that port. -/
def Isolated (w : World) : Prop :=
  ∀ (A B : GoString) (st : LeaseState) (n : Nat) (ln : Listener) (l : Lease),
    w.leases[A]? = some st → st.forward = some n → .listener n ∈ w.live →
    w.listeners[n]? = some ln → w.store.get B = some l → B ≠ A → l.allocatedPort ≠ ln.port

/-- When `StartForward` binds the port it has read, that port has not been given to another
lease in the meantime. A `StartForward` that is refused binds nothing. -/
def BindsOwnPort (w : World) : Act → Prop
  | .start now portInUse => ∀ sec m l, w.mu = some sec →
      w.leases.startForward sec.found now sec.conn sec.id
        (fun p => w.listening p || portInUse p) w.listeners.length = .ok (m, l) →
      ∀ B l', w.store.get B = some l' → l'.allocatedPort = l.allocatedPort → B = sec.id
  | _ => True

/-- The step leads to a state in which leases are isolated. -/
def StaysIsolated (w : World) (a : Act) : Prop := ∀ w', w.step a = some w' → w'.Isolated

/-- Open listeners are on ports of their own lease, if these are allocated at all. -/
def PortsOwned (w : World) : Prop :=
  ∀ (n : Nat) (ln : Listener), w.listeners[n]? = some ln → .listener n ∈ w.live →
    ∀ B l, w.store.get B = some l → l.allocatedPort = ln.port → B = ln.lease

/-- What a step does to the ports: a call on the store, a bind, or at most some closes. -/
theorem Step.ports (h : w.Step a w') :
    (∃ c : Call, w'.store = (c.run w.store).store ∧ w'.listeners = w.listeners ∧ w'.live = w.live ∧
      ∀ p env, c = .create p env → ∀ port, env.portInUse port = false →
        w.listening port = false) ∨
    (∃ sec now f m l, w.mu = some sec ∧ a = .start now f ∧
      w.leases.startForward sec.found now sec.conn sec.id (fun p => w.listening p || f p)
        w.listeners.length = .ok (m, l) ∧ w'.store = w.store ∧
      w'.listeners = w.listeners ++ [⟨sec.id, l.token, l.allocatedPort, sec.conn⟩] ∧
      w'.live = insert (.listener w.listeners.length) w.live) ∨
    w'.store = w.store ∧ w'.listeners = w.listeners ∧
      ∀ n, .listener n ∈ w'.live → .listener n ∈ w.live := by
  cases h with
  | create p env ht =>
    refine .inl ⟨_, rfl, rfl, rfl, ?_⟩
    rintro p' env' ⟨⟩ port hp
    exact (Bool.or_eq_false_iff.1 hp).1
  | extend => exact .inl ⟨_, rfl, rfl, rfl, fun _ _ hc => nomatch hc⟩
  | refuse => exact .inl ⟨_, rfl, rfl, rfl, fun _ _ hc => nomatch hc⟩
  | revoke => exact .inl ⟨_, rfl, rfl, rfl, fun _ _ hc => nomatch hc⟩
  | mark => exact .inl ⟨_, rfl, rfl, rfl, fun _ _ hc => nomatch hc⟩
  | start now f c id found hd m l hmu hr hst =>
    exact .inr (.inl ⟨_, now, f, m, l, hmu, rfl, hst, rfl, rfl, rfl⟩)
  | close => exact .inr (.inr ⟨rfl, rfl, fun _ hn => Finset.mem_of_mem_erase hn⟩)
  | drop => exact .inr (.inr ⟨rfl, rfl, fun _ hn => Finset.mem_of_mem_erase hn⟩)
  | hangup => exact .inr (.inr ⟨rfl, rfl, fun _ hn => Finset.mem_of_mem_erase hn⟩)
  | auth =>
    refine .inr (.inr ⟨rfl, rfl, ?_⟩)
    intro n hn
    exact (Finset.mem_insert.1 hn).resolve_left nofun
  | _ => exact .inr (.inr ⟨rfl, rfl, fun _ hn => hn⟩)

theorem PortsOwned.step (h : w.PortsOwned) (hi : w.Inv) (hok : w.BindsOwnPort a)
    (hst : w.step a = some w') : w'.PortsOwned := by
  rcases (step_cases hst).ports with ⟨c, hs, hl, hv, hc⟩ |
    ⟨sec, now, f, m, l, hmu, rfl, hsf, hs, hl, hv⟩ | ⟨hs, hl, hv⟩
  · intro n ln hn hlive B l hB hp
    rw [hl] at hn
    rw [hv] at hlive
    rw [hs] at hB
    rcases Call.origin hi.store hB with ⟨l', hl', he⟩ | ⟨_, p, env, rfl, _, _, hfree, _⟩
    · refine h n ln hn hlive B l' hl' ?_
      rw [← hp, he]
    · exact absurd hp.symm (listening_eq_false (hc p env rfl _ hfree) hn hlive)
  · intro n ln hn hlive B l' hB hp
    rw [hl, getElem?_push] at hn
    rw [hv] at hlive
    rw [hs] at hB
    split at hn
    · cases hn
      exact hok sec m l hmu hsf B l' hB hp
    · rename_i hne
      refine h n ln hn ((Finset.mem_insert.1 hlive).resolve_left ?_) B l' hB hp
      rintro ⟨⟩
      exact hne rfl
  · intro n ln hn hlive B l hB hp
    rw [hl] at hn
    rw [hs] at hB
    exact h n ln hn (hv n hlive) B l hB hp

theorem isolated_of_reach (h : Reach BindsOwnPort w) : w.Isolated := by
  have hp : w.PortsOwned := by
    apply h.induct
    · intro s minted _ n ln hn
      cases hn
    · intro w a w' hi hp hok hst
      exact hp.step hi hok hst
  intro A B st n ln l hA hn hlive hln hB hne he
  obtain ⟨ln', hln', hown⟩ := h.inv.bound A st n hA hn
  rw [hln] at hln'
  cases hln'
  exact hne ((hp n ln hln hlive B l hB he).trans hown)

/-- A step that binds a port of another lease breaks the isolation at once. -/
theorem bindsOwnPort_of_staysIsolated (h : w.StaysIsolated a) (hst : w.step a = some w') :
    w.BindsOwnPort a := by
  cases a with
  | start now portInUse =>
    rintro ⟨c, id, starts, found⟩ m l hmu hsf B l' hB hp
    by_contra hne
    have hi := h w' hst
    obtain ⟨_, _, _, st, _, _, _, rfl⟩ := Leases.startForward_spec hsf
    simp only [step, World.start, hmu] at hst
    cases starts with
    | false => cases hst
    | true =>
      cases hr : w.ready c .serving with
      | none =>
        simp only [hr] at hst
        cases hst
      | some hd =>
        simp only [hr, hsf] at hst
        cases hst
        refine hi id B { st with forward := some w.listeners.length } w.listeners.length
          ⟨id, l.token, l.allocatedPort, c⟩ l' ?_ rfl (Finset.mem_insert_self _ _) ?_ hB hne hp
        · rw [GoMap.get_insert, if_pos rfl]
        · rw [getElem?_push, if_pos rfl]
  | _ => trivial

/-- In every run whose binds come in time leases are isolated from each other, and no other run
keeps them so. -/
theorem isolated_iff_bindsOwnPort (w : World) : (Reach BindsOwnPort w → w.Isolated) ∧
    (Reach BindsOwnPort w ↔ Reach StaysIsolated w) := by
  refine ⟨isolated_of_reach, ?_, ?_⟩
  · intro h
    induction h with
    | boot hb => exact .boot hb
    | step hr hok hst ih =>
      refine ih.step ?_ hst
      intro w' hst'
      exact isolated_of_reach (hr.step hok hst')
  · intro h
    induction h with
    | boot hb => exact .boot hb
    | step _ hok hst ih => exact ih.step (bindsOwnPort_of_staysIsolated hok hst) hst

theorem bindsOwnPort_of_get (hi : w.Inv) (a : Act)
    (h : ∀ sec, w.mu = some sec → w.store.get sec.id = sec.found) : w.BindsOwnPort a := by
  cases a with
  | start now f =>
    intro sec m l hmu hsf B l' hB hp
    obtain ⟨hf, _⟩ := Leases.startForward_spec hsf
    exact hi.store.ports.inj hB ((h sec hmu).trans hf) hp
  | _ => trivial

def stillThere (w : World) : Bool := w.mu.all fun sec => decide (w.store.get sec.id = sec.found)

theorem isolated_after_start :
    ∃ w, Reach BindsOwnPort w ∧ w.listeners.length = 1 ∧ w.Isolated := by
  have hb : Reach BindsOwnPort (World.boot sampleStore []) := .boot booted_sampleStore
  obtain ⟨w, hr, hl⟩ := hb.of_exec (fun w _ => w.stillThere)
    ([sampleLease (lit "a") 0] ++ sampleConnect 0 0 ++ sampleStart 0)
    (fun w => w.listeners.length = 1) (by
      intro w a hi ht
      refine bindsOwnPort_of_get hi a ?_
      intro sec hmu
      rw [stillThere, hmu] at ht
      exact of_decide_eq_true ht) (by decide)
  exact ⟨w, hr, hl, (isolated_iff_bindsOwnPort w).1 hr⟩

/-- The lease is revoked and its port given to another between the lookup of `StartForward` and
its bind. -/
theorem bind_after_reallocation : ∃ w, Reach (fun _ _ => True) w ∧ ¬ w.Isolated := by
  have hb : Reach (fun _ _ => True) (World.boot sampleStore []) := .boot booted_sampleStore
  obtain ⟨w, hr, hA, hlive, hln, hB⟩ := hb.of_exec (fun _ _ => true)
    ([sampleLease (lit "a") 0] ++ sampleConnect 0 0 ++ [.lockStart 0, .revoke (lit "a") true,
      sampleLease (lit "b") 1, .start 1 fun _ => false])
    (fun w => w.leases[lit "a"]? = some ⟨0, some 0⟩ ∧ Handle.listener 0 ∈ w.live ∧
      w.listeners[0]?.map Listener.port = some 20000 ∧
      (w.store.get (lit "b")).map Lease.allocatedPort = some 20000)
    (fun _ _ _ _ => trivial) (by decide)
  refine ⟨w, hr, ?_⟩
  intro hi
  obtain ⟨ln, hln, hp⟩ := Option.map_eq_some_iff.1 hln
  obtain ⟨l, hl, hp'⟩ := Option.map_eq_some_iff.1 hB
  exact hi (lit "a") (lit "b") _ 0 ln l hA rfl hlive hln hl (by decide) (hp'.trans hp.symm)

end World

end HyruleProxy
