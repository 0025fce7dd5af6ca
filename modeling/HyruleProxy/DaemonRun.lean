import HyruleProxy.DaemonInvariant

namespace HyruleProxy
set_option autoImplicit true

variable {ok : World → Act → Prop} {w w' : World} {s : Store} {minted : List GoString}

theorem Booted.inv (h : Booted s minted) :
    s.Inv ∧ ∀ id l, s.get id = some l → l.token ∈ minted := by
  obtain ⟨es, hv, hn, hm, rfl⟩ := h
  obtain ⟨L, _, hk, _⟩ := Machine.keeps_empty.run es [] hv (by rwa [List.append_nil])
    fun _ _ hl => nomatch hl
  refine ⟨(hk.up s hm).1, ?_⟩
  intro id l hl
  by_contra ht
  -- a token that no event has minted would be fresh and live at once
  obtain ⟨L', _, hk', hf⟩ := Machine.keeps_empty.run es [l.token] hv
    (List.nodup_append.2 ⟨hn, List.nodup_singleton _, by
      rintro t ht' _ he rfl
      rw [List.mem_singleton.1 he] at ht'
      exact ht ht'⟩) fun _ _ hl => nomatch hl
  rw [(hk'.up s hm).2] at hl
  exact hf id l hl (List.mem_singleton_self _)

theorem World.boot_inv (h : Booted s minted) : (World.boot s minted).Inv := by
  obtain ⟨hs, ht⟩ := h.inv
  have hno : ∀ (id : GoString) (st : LeaseState), (∅ : Leases)[id]? = some st → False := by
    intro id st hst
    rw [GoMap.get_empty] at hst
    cases hst
  exact ⟨hs, ht, fun id st hst => (hno id st hst).elim, (fun _ _ hmu => nomatch hmu),
    (fun _ hmu => nomatch hmu), fun id st _ hst => (hno id st hst).elim,
    fun id st hst => (hno id st hst).elim, (fun _ _ hk => nomatch hk),
    fun _ hn => absurd hn (Finset.notMem_empty _), fun _ _ hn => absurd hn (Finset.notMem_empty _),
    fun _ hn => absurd rfl hn⟩

theorem Reach.inv (h : Reach ok w) : w.Inv := by
  induction h with
  | boot hb => exact World.boot_inv hb
  | step _ _ hst ih => exact ih.step hst

/-- An invariant of all runs whose steps meet the condition. -/
theorem Reach.induct {P : World → Prop} (h : Reach ok w)
    (hb : ∀ s minted, Booted s minted → P (World.boot s minted))
    (hs : ∀ w a w', w.Inv → P w → ok w a → w.step a = some w' → P w') : P w := by
  induction h with
  | boot hbt => exact hb _ _ hbt
  | step hr hok hst ih => exact hs _ _ _ hr.inv ih hok hst

/-- Running a list of steps, each of which passes a test. -/
def World.exec (test : World → Act → Bool) : World → List Act → Option World
  | w, [] => some w
  | w, a :: as => if test w a then (w.step a).bind fun w' => w'.exec test as else none

theorem Reach.exec {test : World → Act → Bool} (h : Reach ok w)
    (ht : ∀ w a, w.Inv → test w a = true → ok w a) (he : w.exec test as = some w') :
    Reach ok w' := by
  induction as generalizing w with
  | nil =>
    cases he
    exact h
  | cons a as ih =>
    rw [World.exec] at he
    split at he
    · rename_i htest
      obtain ⟨w₁, hst, he⟩ := Option.bind_eq_some_iff.1 he
      exact ih (h.step (ht w a h.inv htest) hst) he
    · cases he

theorem Reach.of_exec (h : Reach ok w) (test : World → Act → Bool) (as : List Act)
    (P : World → Prop) [DecidablePred P] (ht : ∀ w a, w.Inv → test w a = true → ok w a)
    (he : (w.exec test as).any (fun w => decide (P w)) = true) : ∃ w', Reach ok w' ∧ P w' := by
  cases hx : w.exec test as with
  | none =>
    rw [hx] at he
    cases he
  | some w' =>
    rw [hx] at he
    exact ⟨w', h.exec ht hx, of_decide_eq_true he⟩

namespace Leases

variable {m m' : Leases} {r : Leases × List Handle} {id i : GoString} {owed : List Handle}
  {c n : Nat} {found : Option Lease} {now : Time} {st st' : LeaseState}

/-- A section gives no entry a forward, and the listeners it has to close are forwards that
entries have lost. -/
structure Releases (m : Leases) (r : Leases × List Handle) : Prop where
  kept : ∀ (id : GoString) (st' : LeaseState) (n : Nat), r.1[id]? = some st' →
    st'.forward = some n → ∃ st : LeaseState, m[id]? = some st ∧ st.forward = some n
  lost : ∀ n, .listener n ∈ r.2 → ∃ (id : GoString) (st : LeaseState), m[id]? = some st ∧
    st.forward = some n ∧ ∀ st' : LeaseState, r.1[id]? = some st' → st'.forward = none

theorem Releases.same (h : ∀ n, .listener n ∉ owed) : m.Releases (m, owed) :=
  ⟨fun _ st _ hst hn => ⟨st, hst, hn⟩, fun n hn => absurd hn (h n)⟩

theorem Releases.clear (hother : ∀ i, i ≠ id → m'[i]? = m[i]?)
    (hnone : ∀ st' : LeaseState, m'[id]? = some st' → st'.forward = none)
    (hlost : ∀ n, .listener n ∈ owed →
      ∃ st : LeaseState, m[id]? = some st ∧ st.forward = some n) : m.Releases (m', owed) := by
  constructor
  · intro i st' n hi hn
    by_cases hid : i = id
    · subst hid
      rw [hnone st' hi] at hn
      cases hn
    · exact ⟨st', (hother i hid).symm.trans hi, hn⟩
  · intro n hn
    obtain ⟨st, hst, hf⟩ := hlost n hn
    exact ⟨id, st, hst, hf, hnone⟩

theorem erase_other (m : Leases) (h : i ≠ id) : (m.erase id)[i]? = m[i]? := by
  rw [GoMap.get_erase, if_neg h.symm]

theorem insert_other (m : Leases) (st : LeaseState) (h : i ≠ id) :
    (m.insert id st)[i]? = m[i]? := by
  rw [GoMap.get_insert, if_neg h.symm]

theorem erase_none (h : (m.erase id)[id]? = some st') : st'.forward = none := by
  rw [GoMap.get_erase, if_pos rfl] at h
  cases h

theorem insert_none (h : (m.insert id ⟨c, none⟩)[id]? = some st') : st'.forward = none := by
  rw [GoMap.get_insert, if_pos rfl] at h
  cases h
  rfl

theorem conn_only (n : Nat) : Handle.listener n ∉ [Handle.conn c] := by
  simp

theorem listener_mem_forward (st : LeaseState) :
    Handle.listener n ∈ (st.forward.map Handle.listener).toList ↔ st.forward = some n := by
  simp

theorem listener_mem_handles (h : Handle.listener n ∈ st.handles) : st.forward = some n := by
  rcases mem_handles.1 h with ⟨_, hf, ⟨⟩⟩ | ⟨⟨⟩⟩
  exact hf

theorem teardown_releases (m : Leases) (id : GoString) : m.Releases (m.teardown id) := by
  rw [teardown]
  split
  · exact .same fun _ => List.not_mem_nil
  · rename_i st hst
    apply Releases.clear (fun _ => m.erase_other) fun _ => erase_none
    intro n hn
    exact ⟨st, hst, listener_mem_handles hn⟩

theorem cancelForward_releases (m : Leases) (id : GoString) (c : Nat) :
    m.Releases (m.cancelForward id c) := by
  rw [cancelForward]
  split
  · exact .same fun _ => List.not_mem_nil
  · rename_i st hst
    split
    · exact .same fun _ => List.not_mem_nil
    · rename_i n hn
      split
      · apply Releases.clear (fun _ => m.insert_other _) fun _ => insert_none
        intro n' hn'
        cases List.mem_singleton.1 hn'
        exact ⟨st, hst, hn⟩
      · exact .same fun _ => List.not_mem_nil

theorem onConnClosed_releases (m : Leases) (id : GoString) (c : Nat) :
    m.Releases ((m.onConnClosed id c).1, (m.onConnClosed id c).2 ++ [.conn c]) := by
  rw [onConnClosed]
  split
  · exact .same conn_only
  · rename_i st hst
    split
    · apply Releases.clear (fun _ => m.erase_other) fun _ => erase_none
      intro n hn
      rcases List.mem_append.1 hn with hn | hn
      · exact ⟨st, hst, (listener_mem_forward st).1 hn⟩
      · cases List.mem_singleton.1 hn
    · exact .same conn_only

theorem registerConn_releases (h : m.registerConn found now c id = some r) : m.Releases r := by
  rw [registerConn] at h
  split at h
  · cases h
  · cases h
    apply Releases.clear (fun _ => m.insert_other _) fun _ => insert_none
    intro n hn
    cases hst : m[id]? with
    | none =>
      rw [hst] at hn
      cases hn
    | some st =>
      simp only [hst] at hn
      split at hn
      · exact ⟨st, rfl, (listener_mem_forward st).1 hn⟩
      · exact ⟨st, rfl, listener_mem_handles hn⟩

end Leases

namespace World

/-- The forwards of the entries are open, and nobody is about to close them. -/
structure Serving (w : World) : Prop where
  opened : ∀ (id : GoString) (st : LeaseState) (n : Nat), w.leases[id]? = some st →
    st.forward = some n → .listener n ∈ w.live
  unowed : ∀ (id : GoString) (st : LeaseState) (n : Nat), w.leases[id]? = some st →
    st.forward = some n → ¬ w.Owed (.listener n)
  lt : ∀ n, w.Owed (.listener n) → n < w.listeners.length

theorem Serving.same (h : w.Serving) (hm : w'.leases = w.leases) (ho : w'.owed = w.owed)
    (hn : w'.listeners = w.listeners) (hv : ∀ n, .listener n ∈ w.live → .listener n ∈ w'.live) :
    w'.Serving := by
  have how : ∀ x, w'.Owed x → w.Owed x := by
    rintro x ⟨ag, hx⟩
    exact ⟨ag, by rwa [ho] at hx⟩
  refine ⟨?_, ?_, ?_⟩
  · intro id st n hst hf
    rw [hm] at hst
    exact hv n (h.opened id st n hst hf)
  · intro id st n hst hf hx
    rw [hm] at hst
    exact h.unowed id st n hst hf (how _ hx)
  · intro n hx
    rw [hn]
    exact h.lt n (how _ hx)

theorem Serving.unlock (h : w.Serving) (hi : w.Inv) (ag : Agent) (hr : w.leases.Releases r) :
    (w.unlock ag r).Serving := by
  have how : ∀ x, (w.unlock ag r).Owed x → x ∈ r.2 ∨ w.Owed x := by
    rintro x ⟨b, hb⟩
    change x ∈ (World.owes _ ag r.2).owed b at hb
    rw [owes_owed] at hb
    split at hb
    · exact .inl hb
    · exact .inr ⟨b, hb⟩
  refine ⟨?_, ?_, ?_⟩
  · intro id st' n hst' hf'
    obtain ⟨st, hst, hf⟩ := hr.kept id st' n hst' hf'
    exact h.opened id st n hst hf
  · intro id st' n hst' hf' hx
    obtain ⟨st, hst, hf⟩ := hr.kept id st' n hst' hf'
    rcases how _ hx with hx | hx
    · obtain ⟨i, st₀, hst₀, hf₀, hnone⟩ := hr.lost n hx
      -- a listener belongs to one lease, so both entries are the same
      obtain ⟨ln, hln, hid⟩ := hi.bound id st n hst hf
      obtain ⟨ln₀, hln₀, hid₀⟩ := hi.bound i st₀ n hst₀ hf₀
      rw [hln] at hln₀
      cases hln₀
      rw [← hid₀, hid] at hnone
      rw [hnone st' hst'] at hf'
      cases hf'
    · exact h.unowed id st n hst hf hx
  · intro n hx
    rcases how _ hx with hx | hx
    · obtain ⟨i, st, hst, hf, _⟩ := hr.lost n hx
      obtain ⟨ln, hln, _⟩ := hi.bound i st n hst hf
      exact (List.getElem?_eq_some_iff.1 hln).1
    · exact h.lt n hx

theorem Serving.close (h : w.Serving) (ho : w.owed ag = x :: hs) :
    (World.owes { w with live := w.live.erase x } ag hs).Serving := by
  have how : ∀ y, (World.owes { w with live := w.live.erase x } ag hs).Owed y → w.Owed y := by
    rintro y ⟨b, hb⟩
    rw [owes_owed] at hb
    split at hb
    · exact ⟨ag, by rw [ho]; exact List.mem_cons_of_mem x hb⟩
    · exact ⟨b, hb⟩
  refine ⟨?_, fun id st n hst hf hx => h.unowed id st n hst hf (how _ hx),
    fun n hx => h.lt n (how _ hx)⟩
  intro id st n hst hf
  refine Finset.mem_erase.2 ⟨?_, h.opened id st n hst hf⟩
  rintro rfl
  exact h.unowed id st n hst hf ⟨ag, by rw [ho]; exact List.mem_cons_self⟩

theorem Serving.start (h : w.Serving) {id : GoString} {m : Leases} {l : Lease}
    {inUse : Int → Bool}
    (hst : w.leases.startForward found now k id inUse w.listeners.length = .ok (m, l)) :
    ({ w with
      leases := m
      mu := none
      listeners := w.listeners ++ [⟨id, l.token, l.allocatedPort, k⟩]
      live := insert (.listener w.listeners.length) w.live } : World).Serving := by
  obtain ⟨_, _, _, st, _, _, _, rfl⟩ := Leases.startForward_spec hst
  refine ⟨?_, ?_, ?_⟩
  · intro i st' n hst' hf
    rw [GoMap.get_insert] at hst'
    split at hst'
    · cases hst'
      cases hf
      exact Finset.mem_insert_self _ _
    · exact Finset.mem_insert_of_mem (h.opened i st' n hst' hf)
  · intro i st' n hst' hf hx
    rw [GoMap.get_insert] at hst'
    split at hst'
    · cases hst'
      cases hf
      exact absurd (h.lt _ hx) (lt_irrefl _)
    · exact h.unowed i st' n hst' hf hx
  · intro n hx
    exact (h.lt n hx).trans_le (by simp)

theorem Serving.step (h : w.Serving) (hi : w.Inv) (hst : w.step a = some w') : w'.Serving := by
  have herase : ∀ (v : Finset Handle) (c n : Nat), .listener n ∈ v →
      .listener n ∈ v.erase (.conn c) :=
    fun v c n hn => Finset.mem_erase.2 ⟨nofun, hn⟩
  cases step_cases hst with
  | teardown k t id =>
    exact (h.unlock hi (.task k) (w.leases.teardown_releases id)).same rfl rfl rfl fun _ hn => hn
  | close ag x hs ho => exact h.close ho
  | auth => exact h.same rfl rfl rfl fun _ hn => Finset.mem_insert_of_mem hn
  | drop c => exact h.same rfl rfl rfl (herase _ c)
  | refuseConn now c =>
    exact (h.unlock hi (.handler c) (.same Leases.conn_only)).same rfl rfl rfl fun _ hn => hn
  | register now c id found hd r hmu hr hreg =>
    have hserving := h.unlock hi (.handler c) (Leases.registerConn_releases hreg)
    exact hserving.same rfl rfl rfl fun _ hn => hn
  | gone now portInUse c =>
    exact (h.unlock hi (.handler c) (.same Leases.conn_only)).same rfl rfl rfl fun _ hn => hn
  | start now portInUse c id found hd m l hmu hr hsf => exact h.start hsf
  | cancel c hd => exact h.unlock hi (.handler c) (w.leases.cancelForward_releases hd.served c)
  | leave c hd =>
    exact (h.unlock hi (.handler c) (w.leases.onConnClosed_releases hd.leaseID c)).same rfl rfl rfl
      fun _ hn => hn
  | hangup c => exact h.same rfl rfl rfl (herase _ c)
  | _ => exact h.same rfl rfl rfl fun _ hn => hn

theorem Serving.of_reach (h : Reach ok w) : w.Serving := by
  apply h.induct
  · intro s minted _
    have hno : ∀ (id : GoString) (st : LeaseState), (World.boot s minted).leases[id]? = some st →
        False := by
      intro id st hst
      change (∅ : Leases)[id]? = some st at hst
      rw [GoMap.get_empty] at hst
      cases hst
    refine ⟨fun id st _ hst => (hno id st hst).elim, fun id st _ hst => (hno id st hst).elim, ?_⟩
    rintro n ⟨ag, hn⟩
    cases hn
  · intro w a w' hi hs _ hst
    exact hs.step hi hst

/-- No `RevokeLease` or `SweepExpired` is between its store step and the end of its `Teardown`,
and no handler owes a close. -/
def Quiet (w : World) : Prop :=
  (∀ t ∈ w.tasks, t.tearing = none) ∧ (∀ k < w.tasks.length, w.owed (.task k) = []) ∧
    ∀ c < w.handlers.length, w.owed (.handler c) = []

instance (w : World) : Decidable w.Quiet :=
  inferInstanceAs (Decidable ((∀ t ∈ w.tasks, t.tearing = none) ∧
    (∀ k < w.tasks.length, w.owed (.task k) = []) ∧
    ∀ c < w.handlers.length, w.owed (.handler c) = []))

/-- Entries, open listeners and open registered connections belong together, and the entries
belong to leases of the store. -/
structure Orderly (w : World) : Prop where
  entry : ∀ (id : GoString) (st : LeaseState), w.leases[id]? = some st →
    ∃ l, w.store.get id = some l ∧ ∀ n, st.forward = some n →
      .listener n ∈ w.live ∧
        ∃ ln : Listener, w.listeners[n]? = some ln ∧ ln.port = l.allocatedPort
  listener : ∀ n, .listener n ∈ w.live →
    ∃ (id : GoString) (st : LeaseState), w.leases[id]? = some st ∧ st.forward = some n
  conn : ∀ (c : Nat) (hd : Handler), .conn c ∈ w.live → w.handlers[c]? = some hd →
    hd.registered ≠ none →
    ∃ (id : GoString) (st : LeaseState), w.leases[id]? = some st ∧ st.conn = c

theorem Quiet.not_pending (hq : w.Quiet) (id : GoString) : ¬ w.Pending id := by
  rintro ⟨k, t, hk, ht⟩
  rw [hq.1 t (List.mem_of_getElem? hk)] at ht
  cases ht

theorem Quiet.not_owed (hq : w.Quiet) (hi : w.Inv) (h : Handle) : ¬ w.Owed h := by
  rintro ⟨ag, hag⟩
  have hne : w.owed ag ≠ [] := List.ne_nil_of_mem hag
  have hhas := hi.idle ag hne
  cases ag with
  | handler c => exact hne (hq.2.2 c hhas)
  | task k => exact hne (hq.2.1 k hhas)

/-- No orphans: whenever nothing is under way, every entry is one of a live lease with its forward
open on the port of the lease, and every open listener and registered connection is one of an
entry. -/
theorem orderly_of_quiet (h : Reach (fun _ _ => True) w) (hq : w.Quiet) : w.Orderly := by
  have hi := h.inv
  have hheld : ∀ x, w.Kept x → w.leases.Holds x := by
    rintro x (hx | hx)
    · exact hx
    · exact absurd hx (hq.not_owed hi x)
  constructor
  · intro id st hst
    rcases hi.backed id st hst with ⟨l, hl, hp⟩ | hp
    · refine ⟨l, hl, ?_⟩
      intro n hn
      obtain ⟨ln, hln, _⟩ := hi.bound id st n hst hn
      exact ⟨(Serving.of_reach h).opened id st n hst hn, ln, hln, hp n ln hn hln⟩
    · exact absurd hp (hq.not_pending id)
  · intro n hn
    obtain ⟨id, st, hst, hm⟩ := hheld _ (hi.listener n hn)
    rcases Leases.mem_handles.1 hm with ⟨_, hf, ⟨⟩⟩ | ⟨⟨⟩⟩
    exact ⟨id, st, hst, hf⟩
  · intro c hd hc hk hr
    obtain ⟨id, st, hst, hm⟩ := hheld _ (hi.conn c hd hc hk hr)
    rcases Leases.mem_handles.1 hm with ⟨_, _, ⟨⟩⟩ | ⟨⟨⟩⟩
    exact ⟨id, st, hst, rfl⟩

/-- A store with one data port. -/
def sampleStore : Store := ⟨⟨some ∅⟩, [], ∅, ∅, newPortAllocator 20000 20000⟩

theorem booted_sampleStore : Booted sampleStore [] := by
  refine ⟨[.boot 20000 20000 0 true], ?_, List.nodup_nil, rfl, rfl⟩
  intro e he p env hp
  rw [List.mem_singleton.1 he] at hp
  cases hp

def sampleToken (key : UInt8) : GoString := encodeToString (List.replicate 20 key)

def sampleLease (id : GoString) (key : UInt8) : Act :=
  .create ⟨id, 3600, []⟩ ⟨fun _ => false, some (List.replicate 20 key), 0, .commits⟩

/-- The handshake of connection `c` up to its registration. -/
def sampleConnect (c : Nat) (key : UInt8) : List Act :=
  [.auth (sampleToken key) 1, .check c 1, .lockRegister c, .register 1]

def sampleStart (c : Nat) : List Act := [.lockStart c, .start 1 fun _ => false]

theorem orderly_after_takeover :
    ∃ w, Reach (fun _ _ => True) w ∧ w.Quiet ∧ w.handlers.length = 2 ∧ w.listeners.length = 2 ∧
      w.Orderly := by
  have hb : Reach (fun _ _ => True) (World.boot sampleStore []) := .boot booted_sampleStore
  obtain ⟨w, hr, hq, hh, hl⟩ := hb.of_exec (fun _ _ => true)
    ([sampleLease (lit "a") 0] ++ sampleConnect 0 0 ++ sampleStart 0 ++ sampleConnect 1 0 ++
      [.close (.handler 1), .close (.handler 1)] ++ sampleStart 1)
    (fun w => w.Quiet ∧ w.handlers.length = 2 ∧ w.listeners.length = 2)
    (fun _ _ _ _ => trivial) (by decide)
  exact ⟨w, hr, hq, hh, hl, orderly_of_quiet hr hq⟩

end World

end HyruleProxy
