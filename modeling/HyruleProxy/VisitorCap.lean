import HyruleProxy.SessionView

namespace HyruleProxy
set_option autoImplicit true

/-- Whether a run at this stage has reserved a slot and not released it. -/
def Stage.reserved : Stage → Bool
  | .opening => true
  | .recording => true
  | .copying _ _ => true
  | .closingChannel => true
  | .releasing => true
  | _ => false

/-- How many runs for the session hold a slot. -/
def holders (vs : List Visitor) (p : Nat) : Nat :=
  vs.countP fun v => v.slot && decide (v.session = p)

/-- Whether the run holds a slot of the session, as a number. -/
def Visitor.share (v : Visitor) (p : Nat) : Int := if v.slot && decide (v.session = p) then 1 else 0

theorem holders_set {vs : List Visitor} {v : Visitor} (h : vs[i]? = some v) (v' : Visitor)
    (p : Nat) : (holders (vs.set i v') p : Int) = holders vs p - v.share p + v'.share p := by
  obtain ⟨hi, rfl⟩ := List.getElem?_eq_some_iff.1 h
  have hpos : (vs.get ⟨i, hi⟩).slot && decide ((vs.get ⟨i, hi⟩).session = p) → 1 ≤ holders vs p :=
    fun hq => List.countP_pos_iff.2 ⟨_, List.getElem_mem hi, hq⟩
  rw [holders, List.countP_set hi]
  simp only [Visitor.share, List.get_eq_getElem, holders] at hpos ⊢
  split
  · rename_i hq
    have hle := hpos hq
    split <;> push_cast [Nat.cast_sub hle] <;> rfl
  · split <;> simp

theorem holders_push (vs : List Visitor) (v : Visitor) (hv : v.slot = false) (p : Nat) :
    holders (vs ++ [v]) p = holders vs p := by
  rw [holders, List.countP_append, holders, List.countP_singleton]
  simp [hv]

/-- The counters of the sessions, the sessions of the forwards and the runs of `handleVisitor`
fit together. -/
structure Slots (cap : Int) (counts : List Int) (homes : List Nat) (vs : List Visitor) :
    Prop where
  counted : ∀ (p : Nat) (n : Int), counts[p]? = some n → n = holders vs p ∧ n ≤ max cap 0
  placed : ∀ v ∈ vs, v.session < counts.length
  homes : ∀ p ∈ homes, p < counts.length
  slot : ∀ v ∈ vs, v.slot = v.stage.reserved
  swapping : ∀ v ∈ vs, ∀ cur, v.stage = .swapping cur → cur < cap

namespace Slots

variable {cap : Int} {counts : List Int} {homes : List Nat} {vs : List Visitor} {v v' : Visitor}

theorem nil (cap : Int) : Slots cap [] [] [] :=
  ⟨(fun _ _ h => nomatch h), (fun _ h => nomatch h), (fun _ h => nomatch h),
    (fun _ h => nomatch h), (fun _ h => nomatch h)⟩

theorem push_session (h : Slots cap counts homes vs) : Slots cap (counts ++ [0]) homes vs := by
  have hlen : counts.length < (counts ++ [0]).length := by simp
  refine ⟨?_, fun v hv => (h.placed v hv).trans hlen, fun p hp => (h.homes p hp).trans hlen,
    h.slot, h.swapping⟩
  intro p n hn
  rw [getElem?_push] at hn
  split at hn
  · rename_i hp
    cases hn
    refine ⟨?_, le_max_right _ _⟩
    have hz : holders vs p = 0 := by
      refine List.countP_eq_zero.2 ?_
      intro v hv hq
      simp only [Bool.and_eq_true, decide_eq_true_eq] at hq
      exact absurd (h.placed v hv) (by omega)
    rw [hz, Nat.cast_zero]
  · exact h.counted p n hn

theorem push_home (h : Slots cap counts homes vs) (hp : p < counts.length) :
    Slots cap counts (homes ++ [p]) vs := by
  refine ⟨h.counted, h.placed, ?_, h.slot, h.swapping⟩
  intro q hq
  rcases List.mem_append.1 hq with hq | hq
  · exact h.homes q hq
  · rwa [List.mem_singleton.1 hq]

theorem push_visitor (h : Slots cap counts homes vs) (hp : p ∈ homes) (k : Nat) :
    Slots cap counts homes (vs ++ [⟨p, k, .accepted, false⟩]) := by
  have hall : ∀ (Q : Visitor → Prop), (∀ v ∈ vs, Q v) → Q ⟨p, k, .accepted, false⟩ →
      ∀ v ∈ vs ++ [⟨p, k, .accepted, false⟩], Q v := by
    intro Q hQ hq v hv
    rcases List.mem_append.1 hv with hv | hv
    · exact hQ v hv
    · rwa [List.mem_singleton.1 hv]
  refine ⟨?_, hall _ h.placed (h.homes p hp), h.homes, hall _ h.slot rfl,
    hall _ h.swapping (fun _ hs => nomatch hs)⟩
  intro q n hn
  rw [holders_push vs ⟨p, k, .accepted, false⟩ rfl]
  exact h.counted q n hn

/-- One step of a run: its counter moves with its slot. -/
theorem move (h : Slots cap counts homes vs) (hv : vs[i]? = some v)
    (hn : counts[v.session]? = some n) (v' : Visitor) (n' : Int) (hs : v'.session = v.session)
    (hn' : n' = n - v.share v.session + v'.share v.session) (hcap : n' ≤ max cap 0)
    (hslot : v'.slot = v'.stage.reserved) (hsw : ∀ cur, v'.stage = .swapping cur → cur < cap) :
    Slots cap (counts.set v.session n') homes (vs.set i v') := by
  have hall : ∀ (Q : Visitor → Prop), (∀ v ∈ vs, Q v) → Q v' → ∀ u ∈ vs.set i v', Q u := by
    intro Q hQ hq u hu
    rcases List.mem_or_eq_of_mem_set hu with hu | rfl
    · exact hQ u hu
    · exact hq
  have hlen : (counts.set v.session n').length = counts.length := List.length_set
  refine ⟨?_, ?_, ?_, hall _ h.slot hslot, hall _ h.swapping hsw⟩
  · intro p x hx
    rw [getElem?_set_some hn] at hx
    rw [holders_set hv]
    split at hx
    · rename_i hp
      cases hx
      subst hp
      have hc := (h.counted v.session n hn).1
      exact ⟨by omega, hcap⟩
    · rename_i hp
      have hz : ∀ u : Visitor, u.session = v.session → u.share p = 0 := by
        intro u hu
        rw [Visitor.share, if_neg]
        simp [hu, hp]
      rw [hz v rfl, hz v' hs, sub_zero, add_zero]
      exact h.counted p x hx
  · rw [hlen]
    refine hall _ h.placed ?_
    rw [hs]
    exact h.placed v (List.mem_of_getElem? hv)
  · rw [hlen]
    exact h.homes

end Slots

namespace Manager

variable {m m' : Manager} {cap : Int} {op : Op} {ops : List Op} {v v' : Visitor} {st st' : Session}
  {f f' : Forward} {i k p : Nat} {move : Move}

/-- Counters, forwards and runs of the manager. -/
def Slotted (cap : Int) (m : Manager) : Prop :=
  Slots cap (m.sessions.map Session.visitors) (m.forwards.map Forward.session) m.visitors

theorem Slotted.pass (h : m.Slotted cap) (hv : m.visitors[i]? = some v)
    (hst : m.sessions[v.session]? = some st) (s : Stage) (hr : s.reserved = v.stage.reserved)
    (hs : m'.sessions.map Session.visitors = m.sessions.map Session.visitors)
    (hf : m'.forwards.map Forward.session = m.forwards.map Forward.session)
    (hvs : m'.visitors = m.visitors.set i { v with stage := s })
    (hsw : ∀ cur, s = .swapping cur → cur < cap) : m'.Slotted cap := by
  have hn : (m.sessions.map Session.visitors)[v.session]? = some st.visitors := by
    rw [List.getElem?_map, hst, Option.map_some]
  have hslot := h.slot v (List.mem_of_getElem? hv)
  have hmove := Slots.move h hv hn { v with stage := s } st.visitors rfl
    (by simp [Visitor.share]) (h.counted _ _ hn).2 (hslot.trans hr.symm) hsw
  rw [set_same hn] at hmove
  rw [Slotted, hs, hf, hvs]
  exact hmove

theorem Visits.slotted (hvis : Visits cap m i v st f move m') (h : m.Slotted cap)
    (hv : m.visitors[i]? = some v) (hst : m.sessions[v.session]? = some st)
    (hf : m.forwards[v.forward]? = some f) : m'.Slotted cap := by
  have hn : (m.sessions.map Session.visitors)[v.session]? = some st.visitors := by
    rw [List.getElem?_map, hst, Option.map_some]
  have hslot := h.slot v (List.mem_of_getElem? hv)
  cases hvis with
  | screen allowed hs =>
    refine h.pass hv hst _ ?_ rfl rfl rfl ?_
    · cases allowed <;> simp [hs, Stage.reserved]
    · intro cur hc
      cases allowed <;> cases hc
  | late hs => exact h.pass hv hst .closingSocket (by rw [hs]; rfl) rfl rfl rfl (by simp)
  | track hs =>
    exact h.pass hv hst .loading (by rw [hs]; rfl) rfl (map_set_same hf rfl) rfl (by simp)
  | full hs => exact h.pass hv hst .untracking (by rw [hs]; rfl) rfl rfl rfl (by simp)
  | load hs hlt =>
    refine h.pass hv hst (.swapping st.visitors) (by rw [hs]; rfl) rfl rfl rfl ?_
    rintro cur ⟨⟩
    exact hlt
  | lose cur hs => exact h.pass hv hst .loading (by rw [hs]; rfl) rfl rfl rfl (by simp)
  | reserve hs =>
    have hlt := h.swapping v (List.mem_of_getElem? hv) _ hs
    rw [hs] at hslot
    have hmove := Slots.move h hv hn { v with stage := .opening, slot := true }
      (st.visitors + 1) rfl (by simp [Visitor.share, hslot, Stage.reserved])
      (le_max_of_le_left hlt) rfl (by simp)
    simp only [Slotted, goto, setSession, List.map_set]
    exact hmove
  | refuse hs => exact h.pass hv hst .releasing (by rw [hs]; rfl) rfl rfl rfl (by simp)
  | openChannel hs => exact h.pass hv hst .recording (by rw [hs]; rfl) rfl rfl rfl (by simp)
  | abort hs => exact h.pass hv hst .closingChannel (by rw [hs]; rfl) rfl rfl rfl (by simp)
  | record hs =>
    exact h.pass hv hst (.copying false false) (by rw [hs]; rfl) rfl (map_set_same hf rfl) rfl
      (by simp)
  | copiedIn outDone n hs =>
    exact h.pass hv hst (.copying true outDone) (by rw [hs]; rfl) (map_set_same hst rfl) rfl rfl
      (by simp)
  | copiedOut inDone n hs =>
    exact h.pass hv hst (.copying inDone true) (by rw [hs]; rfl) (map_set_same hst rfl) rfl rfl
      (by simp)
  | join hs => exact h.pass hv hst .closingChannel (by rw [hs]; rfl) rfl rfl rfl (by simp)
  | closeChannel hs => exact h.pass hv hst .releasing (by rw [hs]; rfl) rfl rfl rfl (by simp)
  | release hs =>
    have hle := (h.counted _ _ hn).2
    rw [hs] at hslot
    have hmove := Slots.move h hv hn { v with stage := .untracking, slot := false }
      (st.visitors - 1) rfl (by simp [Visitor.share, hslot, Stage.reserved]) (by omega) rfl
      (by simp)
    simp only [Slotted, goto, setSession, List.map_set]
    exact hmove
  | untrack hs =>
    exact h.pass hv hst .closingSocket (by rw [hs]; rfl) rfl (map_set_same hf rfl) rfl (by simp)
  | closeSocket hs => exact h.pass hv hst .returned (by rw [hs]; rfl) rfl rfl rfl (by simp)

theorem Step.slotted (hst : m.Step cap op m') (h : m.Slotted cap) : m'.Slotted cap := by
  cases hst with
  | entries => exact h
  | register op leases c =>
    have hs := h.push_session
    rw [← List.map_singleton (f := Session.visitors) (a := ⟨⟨c, none⟩, 0, 0, 0⟩),
      ← List.map_append] at hs
    exact hs
  | cancel op p st hst =>
    have hsame : (m.setSession p { st with forward := none }).sessions.map Session.visitors =
        m.sessions.map Session.visitors := map_set_same hst rfl
    rw [Slotted, hsame]
    exact h
  | start op p st hst =>
    have hp : p < (m.sessions.map Session.visitors).length := by
      rw [List.length_map]
      exact (List.getElem?_eq_some_iff.1 hst).1
    have hs := h.push_home hp
    have hsame : (m.setSession p { st with forward := some m.forwards.length }).sessions.map
        Session.visitors = m.sessions.map Session.visitors := map_set_same hst rfl
    simp only [Slotted, hsame, List.map_append]
    exact hs
  | accept k f hf hp =>
    refine h.push_visitor ?_ k
    exact List.mem_map.2 ⟨f, List.mem_of_getElem? hf, rfl⟩
  | visit i move v st f m' hv hst hf hvis => exact hvis.slotted h hv hst hf
  | close k j f m' hf hcl =>
    have hsame : m'.forwards.map Forward.session = m.forwards.map Forward.session := by
      cases hcl <;> exact map_set_same hf rfl
    have hrest : m'.sessions = m.sessions ∧ m'.visitors = m.visitors := by
      cases hcl <;> exact ⟨rfl, rfl⟩
    rw [Slotted, hsame, hrest.1, hrest.2]
    exact h

theorem Run.slotted (h : Run cap ops m) : m.Slotted cap := by
  induction h with
  | nil => exact .nil cap
  | snoc _ hst ih => exact (step_cases hst).slotted ih

/-- The counter of a session is the number of runs that hold one of its slots, and it stays
within the cap; a run that has returned holds none. -/
theorem visitors_within_cap (hcap : 0 < cap) (h : Run cap ops m) :
    (∀ (p : Nat) (st : Session), m.sessions[p]? = some st → st.visitors = holders m.visitors p ∧
      0 ≤ st.visitors ∧ st.visitors ≤ cap) ∧
    ∀ v ∈ m.visitors, v.stage = .returned → v.slot = false := by
  have hs := h.slotted
  constructor
  · intro p st hst
    have hn : (m.sessions.map Session.visitors)[p]? = some st.visitors := by
      rw [List.getElem?_map, hst, Option.map_some]
    obtain ⟨hc, hle⟩ := hs.counted p st.visitors hn
    rw [max_eq_left hcap.le] at hle
    exact ⟨hc, hc ▸ Int.natCast_nonneg _, hle⟩
  · intro v hv hr
    rw [hs.slot v hv, hr]
    rfl

/-- Two runs race for the only slot; the forward is cancelled and started again, and a third run
finds the slot still taken. -/
def racingOps : List Op :=
  [sampleRegister 0, sampleForward 0, .accept 0, .accept 0, .visit 0 (.screen true),
    .visit 1 (.screen true), .visit 0 .track, .visit 1 .track, .visit 0 .load, .visit 1 .load,
    .visit 1 .swap, .visit 0 .swap, .visit 0 .load, .visit 0 .untrack, .visit 0 .closeSocket,
    .cancelForward (lit "a") 0, sampleForward 0, .accept 1, .visit 2 (.screen true),
    .visit 2 .track, .visit 2 .load]

theorem visitors_within_cap_racing :
    ∃ m, (0 : Int) < 1 ∧ Run 1 racingOps m ∧ holders m.visitors 0 = 1 ∧
      ∃ v ∈ m.visitors, v.stage = .returned ∧ v.slot = false := by
  obtain ⟨m, hr, hc, hv⟩ := Run.of_exec 1 racingOps (fun m =>
    m.sessions[0]?.map Session.visitors = some 1 ∧
      m.visitors[0]?.map Visitor.stage = some .returned) (by decide)
  obtain ⟨st, hst, hone⟩ := Option.map_eq_some_iff.1 hc
  obtain ⟨v, hv, hret⟩ := Option.map_eq_some_iff.1 hv
  obtain ⟨hcount, hslot⟩ := visitors_within_cap one_pos hr
  have hh := (hcount 0 st hst).1
  have hmem := List.mem_of_getElem? hv
  exact ⟨m, one_pos, hr, by omega, v, hmem, hret, hslot v hmem hret⟩

end Manager

end HyruleProxy
