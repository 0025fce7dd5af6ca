import HyruleProxy.VisitorCap

namespace HyruleProxy
set_option autoImplicit true

/-- The visitor that a socket or channel belongs to. -/
def Wire.visitor : Wire → Nat
  | .socket i => i
  | .channel i => i

def Stage.copies : Stage → Bool
  | .copying _ _ => true
  | _ => false

/-- Whether a run at this stage may have an open channel. -/
def Stage.hasChannel : Stage → Bool
  | .recording => true
  | .copying _ _ => true
  | .closingChannel => true
  | _ => false

/-- A run at this stage has not reached its copies. -/
def Stage.early : Stage → Bool
  | .accepted => true
  | .admitted => true
  | .loading => true
  | .swapping _ => true
  | .opening => true
  | .recording => true
  | _ => false

/-- `close` will find both wires of the visitor, or has taken care of them. -/
def Forward.Guards (f : Forward) (live : Finset Wire) (i : Nat) : Prop :=
  match f.progress with
  | .pending => f.visitors[i]? = some (some i)
  | .unbound => f.visitors[i]? = some (some i)
  | .closing todo => ∀ x : Wire, x.visitor = i → x ∈ live → x ∈ todo
  | .done => ∀ x : Wire, x.visitor = i → x ∉ live

theorem Forward.Guards.mono {f f' : Forward} {live live' : Finset Wire} (h : f.Guards live i)
    (hp : f'.progress = f.progress) (hv : f'.visitors[i]? = f.visitors[i]?)
    (hl : ∀ x : Wire, x.visitor = i → x ∈ live' → x ∈ live) : f'.Guards live' i := by
  rw [Guards] at h ⊢
  rw [hp]
  cases hpr : f.progress with
  | pending =>
    rw [hpr] at h
    exact hv.trans h
  | unbound =>
    rw [hpr] at h
    exact hv.trans h
  | closing todo =>
    rw [hpr] at h
    exact fun x hx hxl => h x hx (hl x hx hxl)
  | done =>
    rw [hpr] at h
    exact fun x hx hxl => h x hx (hl x hx hxl)

theorem Forward.mem_wires {f : Forward} (h : f.visitors[i]? = some (some i)) {x : Wire}
    (hx : x.visitor = i) : x ∈ f.wires := by
  refine List.mem_flatMap.2 ⟨(i, some i), GoMap.mem_toList.2 h, ?_⟩
  cases x with
  | socket j =>
    cases hx
    exact List.mem_cons_self
  | channel j =>
    cases hx
    simp [Wire.visitor]

namespace Manager

variable {m m' : Manager} {cap : Int} {op : Op} {ops : List Op} {v v' : Visitor} {st st' : Session}
  {f f' : Forward} {i j k p : Nat} {move : Move}

/-- Sockets and channels of the visitors are open only as far as their runs have come, and
`close` cannot miss those of a run that copies. -/
structure Guarded (m : Manager) : Prop where
  forward : ∀ (i : Nat) (v : Visitor), m.visitors[i]? = some v → v.forward < m.forwards.length
  bounds : ∀ x ∈ m.live, x.visitor < m.visitors.length
  closed : ∀ (k : Nat) (f : Forward), m.forwards[k]? = some f → f.closed = false →
    f.progress = .pending ∨ f.progress = .unbound
  socket : ∀ (i : Nat) (v : Visitor), m.visitors[i]? = some v → v.stage = .returned →
    .socket i ∉ m.live
  channel : ∀ (i : Nat) (v : Visitor), m.visitors[i]? = some v → .channel i ∈ m.live →
    v.stage.hasChannel = true
  guards : ∀ (i : Nat) (v : Visitor) (f : Forward), m.visitors[i]? = some v →
    m.forwards[v.forward]? = some f → v.stage.copies = true → f.Guards m.live i

/-- A step of the run `i` touches its own record, its own wires and its own place in the map of
its forward. -/
structure Touches (m m' : Manager) (i : Nat) (v v' : Visitor) (f f' : Forward) : Prop where
  forwards : m'.forwards = m.forwards.set v.forward f'
  visitors : m'.visitors = m.visitors.set i v'
  forward : v'.forward = v.forward
  progress : f'.progress = f.progress
  closed : f'.closed = f.closed
  others : ∀ j, j ≠ i → f'.visitors[j]? = f.visitors[j]?
  live : ∀ x ∈ m'.live, x ∈ m.live ∨ x = .channel i
  socket : v'.stage = .returned → .socket i ∉ m'.live
  channel : .channel i ∈ m'.live →
    v'.stage.hasChannel = true ∨ .channel i ∈ m.live ∧ v.stage.hasChannel = false
  copies : v'.stage.copies = true →
    v.stage.copies = true ∧ f' = f ∧ m'.live = m.live ∨
      f.closed = false ∧ f'.visitors[i]? = some (some i)

theorem Touches.pass (hf : m.forwards[v.forward]? = some f) (hfs : m'.forwards = m.forwards)
    (hvs : m'.visitors = m.visitors.set i v') (hfw : v'.forward = v.forward)
    (hlive : m'.live = m.live) (hret : v'.stage ≠ .returned)
    (hch : v'.stage.hasChannel = true ∨ v.stage.hasChannel = false)
    (hcopy : v'.stage.copies = true → v.stage.copies = true) : m.Touches m' i v v' f f where
  forwards := by rw [hfs, set_same hf]
  visitors := hvs
  forward := hfw
  progress := rfl
  closed := rfl
  others := fun _ _ => rfl
  live := fun _ hx => .inl (hlive ▸ hx)
  socket := fun hr => absurd hr hret
  channel := fun hx => hch.imp_right fun h => ⟨hlive ▸ hx, h⟩
  copies := fun hc => .inl ⟨hcopy hc, rfl, hlive⟩

theorem Touches.map (hfs : m'.forwards = m.forwards.set v.forward f')
    (hvs : m'.visitors = m.visitors.set i v') (hfw : v'.forward = v.forward)
    (hlive : m'.live = m.live) (hp : f'.progress = f.progress) (hc : f'.closed = f.closed)
    (ho : ∀ j, j ≠ i → f'.visitors[j]? = f.visitors[j]?) (hret : v'.stage ≠ .returned)
    (hch : v'.stage.hasChannel = true ∨ v.stage.hasChannel = false)
    (hcopy : v'.stage.copies = true → f.closed = false ∧ f'.visitors[i]? = some (some i)) :
    m.Touches m' i v v' f f' where
  forwards := hfs
  visitors := hvs
  forward := hfw
  progress := hp
  closed := hc
  others := ho
  live := fun _ hx => .inl (hlive ▸ hx)
  socket := fun hr => absurd hr hret
  channel := fun hx => hch.imp_right fun h => ⟨hlive ▸ hx, h⟩
  copies := fun hc => .inr (hcopy hc)

theorem Visits.touches (h : Visits cap m i v st f move m')
    (hf : m.forwards[v.forward]? = some f) : ∃ v' f', m.Touches m' i v v' f f' := by
  cases h with
  | screen allowed hs =>
    refine ⟨_, f, .pass hf rfl rfl rfl rfl ?_ (.inr (by rw [hs]; rfl)) ?_⟩
    · cases allowed <;> exact nofun
    · cases allowed <;> exact nofun
  | late hs => exact ⟨_, f, .pass hf rfl rfl rfl rfl nofun (.inr (by rw [hs]; rfl)) nofun⟩
  | track hs =>
    refine ⟨_, _, .map rfl rfl rfl rfl rfl rfl ?_ nofun (.inr (by rw [hs]; rfl)) nofun⟩
    intro j hj
    rw [GoMap.get_insert, if_neg (Ne.symm hj)]
  | full hs => exact ⟨_, f, .pass hf rfl rfl rfl rfl nofun (.inr (by rw [hs]; rfl)) nofun⟩
  | load hs => exact ⟨_, f, .pass hf rfl rfl rfl rfl nofun (.inr (by rw [hs]; rfl)) nofun⟩
  | lose cur hs => exact ⟨_, f, .pass hf rfl rfl rfl rfl nofun (.inr (by rw [hs]; rfl)) nofun⟩
  | reserve hs => exact ⟨_, f, .pass hf rfl rfl rfl rfl nofun (.inr (by rw [hs]; rfl)) nofun⟩
  | refuse hs => exact ⟨_, f, .pass hf rfl rfl rfl rfl nofun (.inr (by rw [hs]; rfl)) nofun⟩
  | openChannel hs =>
    refine ⟨_, f, ⟨(set_same hf).symm, rfl, rfl, rfl, rfl, fun _ _ => rfl, ?_, nofun,
      fun _ => .inl rfl, nofun⟩⟩
    intro x hx
    exact (Finset.mem_insert.1 hx).symm
  | abort hs => exact ⟨_, f, .pass hf rfl rfl rfl rfl nofun (.inl rfl) nofun⟩
  | record hs hl hc =>
    refine ⟨_, _, .map rfl rfl rfl rfl rfl rfl ?_ nofun (.inl rfl) ?_⟩
    · intro j hj
      rw [GoMap.get_insert, if_neg (Ne.symm hj)]
    · intro _
      exact ⟨hc, by rw [GoMap.get_insert, if_pos rfl]⟩
  | copiedIn outDone n hs =>
    exact ⟨_, f, .pass hf rfl rfl rfl rfl nofun (.inl rfl) fun _ => by rw [hs]; rfl⟩
  | copiedOut inDone n hs =>
    exact ⟨_, f, .pass hf rfl rfl rfl rfl nofun (.inl rfl) fun _ => by rw [hs]; rfl⟩
  | join hs => exact ⟨_, f, .pass hf rfl rfl rfl rfl nofun (.inl rfl) nofun⟩
  | closeChannel hs =>
    refine ⟨_, f, ⟨(set_same hf).symm, rfl, rfl, rfl, rfl, fun _ _ => rfl, ?_, nofun, ?_, nofun⟩⟩
    · intro x hx
      exact .inl (Finset.mem_of_mem_erase hx)
    · intro hx
      exact absurd rfl (Finset.ne_of_mem_erase hx)
  | release hs => exact ⟨_, f, .pass hf rfl rfl rfl rfl nofun (.inr (by rw [hs]; rfl)) nofun⟩
  | untrack hs =>
    refine ⟨_, _, .map rfl rfl rfl rfl rfl rfl ?_ nofun (.inr (by rw [hs]; rfl)) nofun⟩
    intro j hj
    rw [Forward.untrackVisitor, GoMap.get_erase, if_neg (Ne.symm hj)]
  | closeSocket hs =>
    refine ⟨_, f, ⟨(set_same hf).symm, rfl, rfl, rfl, rfl, fun _ _ => rfl, ?_, ?_, ?_, nofun⟩⟩
    · intro x hx
      exact .inl (Finset.mem_of_mem_erase hx)
    · intro _ hx
      exact absurd rfl (Finset.ne_of_mem_erase hx)
    · intro hx
      exact .inr ⟨Finset.mem_of_mem_erase hx, by rw [hs]; rfl⟩

theorem Touches.visitor_get (ht : m.Touches m' i v v' f f') (hv : m.visitors[i]? = some v)
    (j : Nat) : m'.visitors[j]? = if i = j then some v' else m.visitors[j]? := by
  rw [ht.visitors, getElem?_set_some hv]

theorem Touches.forward_get (ht : m.Touches m' i v v' f f')
    (hf : m.forwards[v.forward]? = some f) (k : Nat) :
    m'.forwards[k]? = if v.forward = k then some f' else m.forwards[k]? := by
  rw [ht.forwards, getElem?_set_some hf]

theorem Touches.live_of_ne (ht : m.Touches m' i v v' f f') {x : Wire} (hx : x.visitor ≠ i)
    (hl : x ∈ m'.live) : x ∈ m.live := by
  rcases ht.live x hl with h | rfl
  · exact h
  · exact absurd rfl hx

theorem Touches.guards_self (ht : m.Touches m' i v v' f f') (h : m.Guarded)
    (hv : m.visitors[i]? = some v) (hf : m.forwards[v.forward]? = some f)
    (hc : v'.stage.copies = true) : f'.Guards m'.live i := by
  rcases ht.copies hc with ⟨hcv, rfl, hl⟩ | ⟨hcl, hmap⟩
  · rw [hl]
    exact h.guards i v f' hv hf hcv
  · rw [Forward.Guards, ht.progress]
    rcases h.closed v.forward f hf hcl with hp | hp
    · rw [hp]
      exact hmap
    · rw [hp]
      exact hmap

theorem Touches.guards_other (ht : m.Touches m' i v v' f f') (h : m.Guarded)
    (hf : m.forwards[v.forward]? = some f) (hij : i ≠ j) {u : Visitor} {g : Forward}
    (hu : m.visitors[j]? = some u) (hg : m'.forwards[u.forward]? = some g)
    (hc : u.stage.copies = true) : g.Guards m'.live j := by
  have hmono : ∀ x : Wire, x.visitor = j → x ∈ m'.live → x ∈ m.live := by
    rintro x rfl
    exact ht.live_of_ne (Ne.symm hij)
  rw [ht.forward_get hf] at hg
  split at hg
  · rename_i hk
    cases hg
    exact (h.guards j u f hu (hk ▸ hf) hc).mono ht.progress (ht.others j (Ne.symm hij)) hmono
  · exact (h.guards j u g hu hg hc).mono rfl rfl hmono

theorem Touches.guarded (ht : m.Touches m' i v v' f f') (h : m.Guarded)
    (hv : m.visitors[i]? = some v) (hf : m.forwards[v.forward]? = some f) : m'.Guarded := by
  have hi : i < m.visitors.length := (List.getElem?_eq_some_iff.1 hv).1
  refine ⟨?_, ?_, ?_, ?_, ?_, ?_⟩
  · intro j u hu
    rw [ht.visitor_get hv] at hu
    rw [ht.forwards, List.length_set]
    split at hu
    · cases hu
      rw [ht.forward]
      exact h.forward i v hv
    · exact h.forward j u hu
  · intro x hx
    rw [ht.visitors, List.length_set]
    rcases ht.live x hx with hx | rfl
    · exact h.bounds x hx
    · exact hi
  · intro k g hg hc
    rw [ht.forward_get hf] at hg
    split at hg
    · cases hg
      rw [ht.progress]
      exact h.closed v.forward f hf (ht.closed ▸ hc)
    · exact h.closed k g hg hc
  · intro j u hu hr
    rw [ht.visitor_get hv] at hu
    split at hu
    · rename_i hij
      cases hu
      subst hij
      exact ht.socket hr
    · rename_i hij
      intro hx
      exact h.socket j u hu hr (ht.live_of_ne (Ne.symm hij) hx)
  · intro j u hu hx
    rw [ht.visitor_get hv] at hu
    split at hu
    · rename_i hij
      cases hu
      subst hij
      rcases ht.channel hx with hc | ⟨hx, hc⟩
      · exact hc
      · rw [h.channel i v hv hx] at hc
        cases hc
    · rename_i hij
      exact h.channel j u hu (ht.live_of_ne (Ne.symm hij) hx)
  · intro j u g hu hg hc
    rw [ht.visitor_get hv] at hu
    split at hu
    · rename_i hij
      cases hu
      subst hij
      rw [ht.forward, ht.forward_get hf, if_pos rfl] at hg
      cases hg
      exact ht.guards_self h hv hf hc
    · rename_i hij
      exact ht.guards_other h hf hij hu hg hc

theorem Guarded.setForward (h : m.Guarded) (hf : m.forwards[k]? = some f) {live : Finset Wire}
    (hsub : live ⊆ m.live)
    (hcl : f'.closed = false → f'.progress = .pending ∨ f'.progress = .unbound)
    (hg : ∀ i, f.Guards m.live i → f'.Guards live i) :
    ({ m with live := live }.setForward k f').Guarded := by
  have hfw : ∀ j, ({ m with live := live }.setForward k f').forwards[j]? =
      if k = j then some f' else m.forwards[j]? := getElem?_set_some hf f'
  refine ⟨?_, fun x hx => h.bounds x (hsub hx), ?_,
    fun i v hv hr hx => h.socket i v hv hr (hsub hx),
    fun i v hv hx => h.channel i v hv (hsub hx), ?_⟩
  · intro i v hv
    exact lt_of_lt_of_eq (h.forward i v hv) List.length_set.symm
  · intro j g hgj hc
    rw [hfw] at hgj
    split at hgj
    · cases hgj
      exact hcl hc
    · exact h.closed j g hgj hc
  · intro i v g hv hgj hc
    rw [hfw] at hgj
    split at hgj
    · rename_i hk
      cases hgj
      exact hg i (h.guards i v f hv (hk ▸ hf) hc)
    · exact (h.guards i v g hv hgj hc).mono rfl rfl fun x _ hx => hsub hx

theorem Guarded.closed_of (h : m.Guarded) (hf : m.forwards[k]? = some f)
    (hp : f.progress ≠ .pending) (hu : f.progress ≠ .unbound) : f.closed = true := by
  by_contra hc
  rcases h.closed k f hf (eq_false_of_ne_true hc) with h | h
  · exact hp h
  · exact hu h

theorem Closes.guarded (hcl : Closes m k f m') (h : m.Guarded) (hf : m.forwards[k]? = some f) :
    m'.Guarded := by
  cases hcl with
  | unbind hp =>
    refine h.setForward hf (Finset.Subset.refl _) (fun _ => .inr rfl) ?_
    intro i hg
    rw [Forward.Guards, hp] at hg
    exact hg
  | lock hp =>
    refine h.setForward hf (Finset.Subset.refl _) nofun ?_
    intro i hg x hx _
    rw [Forward.Guards, hp] at hg
    exact Forward.mem_wires hg hx
  | wire todo j x hp hx =>
    have hc : f.closed = true := h.closed_of hf (by simp [hp]) (by simp [hp])
    refine h.setForward hf (Finset.erase_subset x m.live) (by simp [hc]) ?_
    intro i hg y hy hlive
    rw [Forward.Guards, hp] at hg
    obtain ⟨hne, hlive⟩ := Finset.mem_erase.1 hlive
    obtain ⟨l, hl⟩ := List.getElem?_of_mem (hg y hy hlive)
    refine List.mem_eraseIdx_iff_getElem?.2 ⟨l, ?_, hl⟩
    rintro rfl
    rw [hx] at hl
    cases hl
    exact hne rfl
  | unlock hp =>
    have hc : f.closed = true := h.closed_of hf (by simp [hp]) (by simp [hp])
    refine h.setForward hf (Finset.Subset.refl _) (by simp [hc]) ?_
    intro i hg x hx hlive
    rw [Forward.Guards, hp] at hg
    exact List.not_mem_nil (hg x hx hlive)

theorem Closes.not_done (hcl : Closes m k f m') : f.progress ≠ .done := by
  intro hd
  cases hcl with
  | unbind hp =>
    rw [hd] at hp
    cases hp
  | lock hp =>
    rw [hd] at hp
    cases hp
  | wire todo j x hp =>
    rw [hd] at hp
    cases hp
  | unlock hp =>
    rw [hd] at hp
    cases hp

theorem Closes.sets (hcl : Closes m k f m') :
    (∃ f', m'.forwards = m.forwards.set k f') ∧ m'.visitors = m.visitors := by
  cases hcl with
  | unbind => exact ⟨⟨_, rfl⟩, rfl⟩
  | lock => exact ⟨⟨_, rfl⟩, rfl⟩
  | wire => exact ⟨⟨_, rfl⟩, rfl⟩
  | unlock => exact ⟨⟨_, rfl⟩, rfl⟩

theorem Guarded.start (h : m.Guarded) (hvs : m'.visitors = m.visitors) (hl : m'.live = m.live)
    (hfs : m'.forwards = m.forwards ++ [⟨p, ∅, false, .pending⟩]) : m'.Guarded := by
  have hold : ∀ (k : Nat), k < m.forwards.length → m'.forwards[k]? = m.forwards[k]? := by
    intro k hk
    rw [hfs, List.getElem?_append_left hk]
  refine ⟨?_, by rw [hl, hvs]; exact h.bounds, ?_, by rw [hl, hvs]; exact h.socket,
    by rw [hl, hvs]; exact h.channel, ?_⟩
  · intro i v hv
    rw [hvs] at hv
    rw [hfs, List.length_append]
    exact Nat.lt_add_right _ (h.forward i v hv)
  · intro k f hf hc
    rw [hfs, getElem?_push] at hf
    split at hf
    · cases hf
      exact .inl rfl
    · exact h.closed k f hf hc
  · intro i v f hv hf hc
    rw [hvs] at hv
    rw [hold v.forward (h.forward i v hv)] at hf
    rw [hl]
    exact h.guards i v f hv hf hc

theorem Guarded.accept (h : m.Guarded) (hf : m.forwards[k]? = some f) (p : Nat) :
    ({ m with
      visitors := m.visitors ++ [⟨p, k, .accepted, false⟩]
      live := insert (.socket m.visitors.length) m.live } : Manager).Guarded := by
  have hlive : ∀ (i : Nat) (v : Visitor), m.visitors[i]? = some v →
      ∀ x ∈ insert (Wire.socket m.visitors.length) m.live, x.visitor = i → x ∈ m.live := by
    intro i v hv x hx hi
    rcases Finset.mem_insert.1 hx with rfl | hx
    · have hlt := (List.getElem?_eq_some_iff.1 hv).1
      rw [← hi] at hlt
      exact absurd hlt (lt_irrefl _)
    · exact hx
  refine ⟨?_, ?_, h.closed, ?_, ?_, ?_⟩
  · intro i v hv
    rw [getElem?_push] at hv
    split at hv
    · cases hv
      exact (List.getElem?_eq_some_iff.1 hf).1
    · exact h.forward i v hv
  · intro x hx
    rw [List.length_append, List.length_singleton]
    rcases Finset.mem_insert.1 hx with rfl | hx
    · exact Nat.lt_succ_self _
    · exact Nat.lt_succ_of_lt (h.bounds x hx)
  · intro i v hv hr hx
    rw [getElem?_push] at hv
    split at hv
    · cases hv
      cases hr
    · exact h.socket i v hv hr (hlive i v hv _ hx rfl)
  · intro i v hv hx
    rw [getElem?_push] at hv
    split at hv
    · rename_i hi
      have hold := (Finset.mem_insert.1 hx).resolve_left nofun
      have hlt := h.bounds _ hold
      exact absurd hlt (by simp [Wire.visitor, hi])
    · exact h.channel i v hv (hlive i v hv _ hx rfl)
  · intro i v g hv hg hc
    rw [getElem?_push] at hv
    split at hv
    · cases hv
      cases hc
    · exact (h.guards i v g hv hg hc).mono rfl rfl fun x hx hxl => hlive i v hv x hxl hx

theorem Step.guarded (hst : m.Step cap op m') (h : m.Guarded) : m'.Guarded := by
  cases hst with
  | entries => exact ⟨h.forward, h.bounds, h.closed, h.socket, h.channel, h.guards⟩
  | register => exact ⟨h.forward, h.bounds, h.closed, h.socket, h.channel, h.guards⟩
  | cancel => exact ⟨h.forward, h.bounds, h.closed, h.socket, h.channel, h.guards⟩
  | start => exact h.start rfl rfl rfl
  | accept k f hf _ => exact h.accept hf f.session
  | visit i move v st f m' hv hst hf hvis =>
    obtain ⟨v', f', ht⟩ := hvis.touches hf
    exact ht.guarded h hv hf
  | close k j f m' hf hcl => exact hcl.guarded h hf

theorem Run.guarded (h : Run cap ops m) : m.Guarded := by
  induction h with
  | nil =>
    exact ⟨(fun _ _ h => nomatch h), fun x hx => absurd hx (Finset.notMem_empty x),
      (fun _ _ h => nomatch h), (fun _ _ h => nomatch h), (fun _ _ h => nomatch h),
      (fun _ _ _ h => nomatch h)⟩
  | snoc _ hst ih => exact (step_cases hst).guarded ih

/-- The `close` of the forward is over and the run has no copies under way. -/
structure Shut (m : Manager) (k i : Nat) : Prop where
  done : ∃ f, m.forwards[k]? = some f ∧ f.closed = true ∧ f.progress = .done
  visitor : ∃ v, m.visitors[i]? = some v ∧ v.forward = k ∧ v.stage.copies = false

theorem Touches.shut (ht : m.Touches m' j v v' f f') (h : m.Shut k i)
    (hv : m.visitors[j]? = some v) (hf : m.forwards[v.forward]? = some f) : m'.Shut k i := by
  obtain ⟨⟨g, hg, hgc, hgp⟩, u, hu, huk, huc⟩ := h
  constructor
  · rw [ht.forward_get hf]
    split
    · rename_i hk
      rw [hk, hg] at hf
      cases hf
      exact ⟨f', rfl, ht.closed.trans hgc, ht.progress.trans hgp⟩
    · exact ⟨g, hg, hgc, hgp⟩
  · rw [ht.visitor_get hv]
    split
    · rename_i hij
      rw [hij, hu] at hv
      cases hv
      refine ⟨v', rfl, ht.forward.trans huk, ?_⟩
      rw [huk, hg] at hf
      cases hf
      cases hc : v'.stage.copies with
      | false => rfl
      | true =>
        rcases ht.copies hc with ⟨hcv, _⟩ | ⟨hcl, _⟩
        · rw [huc] at hcv
          cases hcv
        · rw [hgc] at hcl
          cases hcl
    · exact ⟨u, hu, huk, huc⟩

theorem Step.shut (hst : m.Step cap op m') (h : m.Shut k i) : m'.Shut k i := by
  cases hst with
  | entries => exact ⟨h.done, h.visitor⟩
  | register => exact ⟨h.done, h.visitor⟩
  | cancel => exact ⟨h.done, h.visitor⟩
  | start =>
    obtain ⟨f, hf, hfc, hfp⟩ := h.done
    have hlt := (List.getElem?_eq_some_iff.1 hf).1
    exact ⟨⟨f, (List.getElem?_append_left hlt).trans hf, hfc, hfp⟩, h.visitor⟩
  | accept =>
    obtain ⟨v, hv, hvk, hvc⟩ := h.visitor
    have hlt := (List.getElem?_eq_some_iff.1 hv).1
    exact ⟨h.done, v, (List.getElem?_append_left hlt).trans hv, hvk, hvc⟩
  | visit j move v st f m' hv hst hf hvis =>
    obtain ⟨v', f', ht⟩ := hvis.touches hf
    exact ht.shut h hv hf
  | close k' j f m' hf hcl =>
    obtain ⟨g, hg, hgc, hgp⟩ := h.done
    have hne : k' ≠ k := by
      rintro rfl
      rw [hg] at hf
      cases hf
      exact hcl.not_done hgp
    obtain ⟨⟨f', hfs⟩, hvs⟩ := hcl.sets
    refine ⟨⟨g, ?_, hgc, hgp⟩, by rw [hvs]; exact h.visitor⟩
    rw [hfs, List.getElem?_set_ne hne, hg]

theorem Shut.exec (h : m.Shut k i) (he : m.exec cap ops = some m') : m'.Shut k i := by
  induction ops generalizing m with
  | nil =>
    cases he
    exact h
  | cons op ops ih =>
    obtain ⟨m₁, hst, he⟩ := Option.bind_eq_some_iff.1 he
    exact ih ((step_cases hst).shut h) he

end Manager

/-- The next move of a run, given the verdict on its address and the outcome of
`OpenChannel`. -/
def Stage.move (allowed opened : Bool) : Stage → Move
  | .accepted => .screen allowed
  | .admitted => .track
  | .loading => .load
  | .swapping _ => .swap
  | .opening => .openChannel opened
  | .recording => .record
  | .copying false _ => .copied true 0
  | .copying true false => .copied false 0
  | .copying true true => .join
  | .closingChannel => .closeChannel
  | .releasing => .release
  | .untracking => .untrack
  | .closingSocket => .closeSocket
  | .returned => .closeSocket

/-- How many moves a run alone has at most before it, if it does not come to its copies. -/
def Stage.left (count : Int) : Stage → Nat
  | .accepted => 12
  | .admitted => 11
  | .swapping cur => if count = cur then 8 else 10
  | .loading => 9
  | .opening => 7
  | .recording => 6
  | .copying _ _ => 5
  | .closingChannel => 4
  | .releasing => 3
  | .untracking => 2
  | .closingSocket => 1
  | .returned => 0

namespace Manager

variable {m m' : Manager} {cap : Int} {op : Op} {ops : List Op} {v v' : Visitor} {st st' : Session}
  {f f' : Forward} {i j k p : Nat} {move : Move} {allowed opened : Bool}

/-- Only the run `i` moves, so many times. -/
def alone (cap : Int) (allowed opened : Bool) (i : Nat) : Nat → Manager → Option Manager
  | 0, m => some m
  | n + 1, m => m.visitors[i]?.bind fun v =>
      (m.handleVisitor cap i (v.stage.move allowed opened)).bind (alone cap allowed opened i n)

/-- The move is not blocked and leaves the run with fewer moves before it. -/
def Advances (cap : Int) (m : Manager) (i : Nat) (v : Visitor) (st : Session) (move : Move) :
    Prop :=
  ∃ m' v' st', m.handleVisitor cap i move = some m' ∧ m'.visitors[i]? = some v' ∧
    m'.sessions[v'.session]? = some st' ∧ v'.stage.left st'.visitors < v.stage.left st.visitors

theorem Advances.of_goto (m₁ : Manager) (u : Visitor) (s : Stage) (st' : Session)
    (hm : m.handleVisitor cap i move = some (m₁.goto i u s)) (hv : m.visitors[i]? = some v)
    (hvs : m₁.visitors = m.visitors) (hst : m₁.sessions[u.session]? = some st')
    (hlt : s.left st'.visitors < v.stage.left st.visitors) : Advances cap m i v st move := by
  refine ⟨_, { u with stage := s }, st', hm, ?_, hst, hlt⟩
  rw [goto, hvs, getElem?_set_some hv, if_pos rfl]

/-- After the end of `close`, a run that does not copy is never blocked and comes closer to its
return with every move. -/
theorem Shut.advance (h : m.Shut k i) (hv : m.visitors[i]? = some v)
    (hst : m.sessions[v.session]? = some st) (hne : v.stage ≠ .returned)
    (cap : Int) (allowed opened : Bool) :
    Advances cap m i v st (v.stage.move allowed opened) := by
  obtain ⟨⟨f, hf, hfc, hfp⟩, u, hu, huk, huc⟩ := h
  rw [hv] at hu
  cases hu
  rw [← huk] at hf
  have hl : f.locked = false := by rw [Forward.locked, hfp]
  have hses : ∀ (st' : Session), (m.setSession v.session st').sessions[v.session]? = some st' := by
    intro st'
    rw [setSession, getElem?_set_some hst, if_pos rfl]
  cases hs : v.stage with
  | accepted =>
    refine .of_goto m v (if allowed then .admitted else .closingSocket) st ?_ hv rfl hst ?_
    · simp only [handleVisitor, hv, hst, hf, hs, Stage.move]
    · cases allowed <;> simp [Stage.left, hs]
  | admitted =>
    refine .of_goto m v .closingSocket st ?_ hv rfl hst (by simp [Stage.left, hs])
    simp only [handleVisitor, hv, hst, hf, hs, Stage.move, hl, Forward.trackVisitor, hfc, if_true,
      Bool.false_eq_true, if_false]
  | loading =>
    refine .of_goto m v
      (if cap ≤ st.visitors then .untracking else .swapping st.visitors) st ?_ hv rfl hst ?_
    · simp only [handleVisitor, hv, hst, hf, hs, Stage.move]
    · split <;> simp [Stage.left, hs]
  | swapping cur =>
    by_cases hc : st.visitors = cur
    · refine .of_goto (m.setSession v.session { st with visitors := cur + 1 })
        { v with slot := true } .opening _ ?_ hv rfl (hses _) (by simp [Stage.left, hs, hc])
      simp only [handleVisitor, hv, hst, hf, hs, Stage.move, hc, if_true]
    · refine .of_goto m v .loading st ?_ hv rfl hst (by simp [Stage.left, hs, hc])
      simp only [handleVisitor, hv, hst, hf, hs, Stage.move, hc, if_false]
  | opening =>
    cases opened with
    | true =>
      refine .of_goto { m with live := insert (.channel i) m.live } v .recording st ?_ hv rfl hst
        (by simp [Stage.left, hs])
      simp only [handleVisitor, hv, hst, hf, hs, Stage.move, if_true]
    | false =>
      refine .of_goto m v .releasing st ?_ hv rfl hst (by simp [Stage.left, hs])
      simp only [handleVisitor, hv, hst, hf, hs, Stage.move, Bool.false_eq_true, if_false]
  | recording =>
    refine .of_goto m v .closingChannel st ?_ hv rfl hst (by simp [Stage.left, hs])
    simp only [handleVisitor, hv, hst, hf, hs, Stage.move, hl, Forward.setVisitorChannel, hfc,
      if_true, Bool.false_eq_true, if_false]
  | copying inDone outDone =>
    rw [hs] at huc
    cases huc
  | closingChannel =>
    refine .of_goto { m with live := m.live.erase (.channel i) } v .releasing st ?_ hv rfl hst
      (by simp [Stage.left, hs])
    simp only [handleVisitor, hv, hst, hf, hs, Stage.move]
  | releasing =>
    refine .of_goto (m.setSession v.session { st with visitors := st.visitors - 1 })
      { v with slot := false } .untracking _ ?_ hv rfl (hses _) (by simp [Stage.left, hs])
    simp only [handleVisitor, hv, hst, hf, hs, Stage.move]
  | untracking =>
    refine .of_goto (m.setForward v.forward (f.untrackVisitor i)) v .closingSocket st ?_ hv rfl hst
      (by simp [Stage.left, hs])
    simp only [handleVisitor, hv, hst, hf, hs, Stage.move, hl, Bool.false_eq_true, if_false]
  | closingSocket =>
    refine .of_goto { m with live := m.live.erase (.socket i) } v .returned st ?_ hv rfl hst
      (by simp [Stage.left, hs])
    simp only [handleVisitor, hv, hst, hf, hs, Stage.move]
  | returned => exact absurd hs hne

theorem Shut.returns (h : m.Shut k i) (hv : m.visitors[i]? = some v)
    (hst : m.sessions[v.session]? = some st) (cap : Int) (allowed opened : Bool) :
    ∃ n m' v', m.alone cap allowed opened i n = some m' ∧ m'.visitors[i]? = some v' ∧
      v'.stage = .returned := by
  induction hn : v.stage.left st.visitors using Nat.strong_induction_on
    generalizing m v st with
  | _ n ih =>
    by_cases hr : v.stage = .returned
    · exact ⟨0, m, v, rfl, hv, hr⟩
    · obtain ⟨m₁, v₁, st₁, hmove, hv₁, hst₁, hlt⟩ := h.advance hv hst hr cap allowed opened
      have hstep : m.step cap (.visit i (v.stage.move allowed opened)) = some m₁ := hmove
      have hshut : m₁.Shut k i := (step_cases hstep).shut h
      obtain ⟨n', m', v', hal, hv', hr'⟩ := ih _ (hn ▸ hlt) hshut hv₁ hst₁ rfl
      refine ⟨n' + 1, m', v', ?_, hv', hr'⟩
      rw [alone, hv, Option.bind_some, hmove, Option.bind_some, hal]

/-- Whatever happens next, the run never copies, has closed what it opened when it returns, and
returns when it is let run. -/
structure Abandoned (cap : Int) (m : Manager) (i : Nat) : Prop where
  never : ∀ ops m' v, m.exec cap ops = some m' → m'.visitors[i]? = some v →
    v.stage.copies = false
  clean : ∀ ops m' v, m.exec cap ops = some m' → m'.visitors[i]? = some v →
    v.stage = .returned → .socket i ∉ m'.live ∧ .channel i ∉ m'.live
  returns : ∀ allowed opened, ∃ n m' v, m.alone cap allowed opened i n = some m' ∧
    m'.visitors[i]? = some v ∧ v.stage = .returned

theorem Run.clean (h : Run cap ops m) (hv : m.visitors[i]? = some v) (hr : v.stage = .returned) :
    .socket i ∉ m.live ∧ .channel i ∉ m.live := by
  refine ⟨h.guarded.socket i v hv hr, ?_⟩
  intro hc
  have hch := h.guarded.channel i v hv hc
  rw [hr] at hch
  cases hch

/-- After the end of `close`, a visitor that is being copied has lost its socket and its channel,
and one that is not yet being copied never will be. -/
theorem close_drains (h : Run cap ops m) (hf : m.forwards[k]? = some f)
    (hd : f.progress = .done) (hv : m.visitors[i]? = some v) (hk : v.forward = k) :
    (v.stage.copies = true → .socket i ∉ m.live ∧ .channel i ∉ m.live) ∧
    (v.stage.early = true → m.Abandoned cap i) := by
  have hg := h.guarded
  constructor
  · intro hc
    have hgd := hg.guards i v f hv (hk ▸ hf) hc
    rw [Forward.Guards, hd] at hgd
    exact ⟨hgd (.socket i) rfl, hgd (.channel i) rfl⟩
  · intro he
    have hshut : m.Shut k i := by
      refine ⟨⟨f, hf, hg.closed_of hf (by simp [hd]) (by simp [hd]), hd⟩, v, hv, hk, ?_⟩
      cases hs : v.stage with
      | copying =>
        rw [hs] at he
        cases he
      | _ => rfl
    have hlen : v.session < m.sessions.length := by
      have hp := h.slotted.placed v (List.mem_of_getElem? hv)
      rwa [List.length_map] at hp
    refine ⟨?_, ?_, ?_⟩
    · intro ops' m' u hex hu
      obtain ⟨u', hu', _, hc⟩ := (hshut.exec hex).visitor
      rw [hu] at hu'
      cases hu'
      exact hc
    · intro ops' m' u hex hu hr
      exact (h.exec hex).clean hu hr
    · intro allowed opened
      exact hshut.returns hv (List.getElem?_eq_getElem hlen) cap allowed opened

/-- One visitor is copied and another one gets its channel only after `close` has begun. -/
def closingOps : List Op :=
  [sampleRegister 0, sampleForward 0, .accept 0, .accept 0, .visit 0 (.screen true),
    .visit 0 .track, .visit 0 .load, .visit 0 .swap, .visit 0 (.openChannel true),
    .visit 0 .record, .visit 1 (.screen true), .visit 1 .track, .visit 1 .load, .visit 1 .swap,
    .close 0 0, .close 0 0, .visit 1 (.openChannel true), .close 0 2, .close 0 0, .close 0 0,
    .close 0 0]

theorem close_drains_racing :
    ∃ m, Run 2 closingOps m ∧ m.visitors[0]?.map Visitor.stage = some (.copying false false) ∧
      .socket 0 ∉ m.live ∧ .channel 0 ∉ m.live ∧ m.Abandoned 2 1 := by
  obtain ⟨m, hr, hf, h₀, h₁⟩ := Run.of_exec 2 closingOps (fun m =>
    m.forwards[0]?.map Forward.progress = some .done ∧
    m.visitors[0]?.map (fun v => (v.forward, v.stage)) = some (0, .copying false false) ∧
    m.visitors[1]?.map (fun v => (v.forward, v.stage)) = some (0, .recording)) (by decide)
  obtain ⟨f, hf, hd⟩ := Option.map_eq_some_iff.1 hf
  obtain ⟨v₀, hv₀, he₀⟩ := Option.map_eq_some_iff.1 h₀
  obtain ⟨v₁, hv₁, he₁⟩ := Option.map_eq_some_iff.1 h₁
  obtain ⟨hk₀, hs₀⟩ := Prod.mk.inj he₀
  obtain ⟨hk₁, hs₁⟩ := Prod.mk.inj he₁
  obtain ⟨hso, hch⟩ := (close_drains hr hf hd hv₀ hk₀).1 (by rw [hs₀]; rfl)
  refine ⟨m, hr, ?_, hso, hch, (close_drains hr hf hd hv₁ hk₁).2 (by rw [hs₁]; rfl)⟩
  rw [hv₀, Option.map_some, hs₀]

end Manager

end HyruleProxy
