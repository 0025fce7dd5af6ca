import HyruleProxy.SessionView

namespace HyruleProxy
set_option autoImplicit true

/-- The connections of the entries. -/
def Leases.conns (m : Leases) (id : GoString) : Option Nat := m[id]?.map LeaseState.conn

theorem Leases.conns_insert (m : Leases) (id : GoString) (st : LeaseState) :
    conns (m.insert id st) = Function.update m.conns id (some st.conn) := by
  funext k
  rw [conns, GoMap.get_insert, Function.update_apply]
  by_cases hk : id = k
  · subst hk
    rw [if_pos rfl, if_pos rfl, Option.map_some]
  · rw [if_neg hk, if_neg (Ne.symm hk), conns]

theorem Leases.conns_insert_same {m : Leases} {id : GoString} {st : LeaseState}
    (hst : m[id]? = some st) (n : Option Nat) :
    conns (m.insert id { st with forward := n }) = m.conns := by
  rw [conns_insert]
  apply Function.update_eq_self_iff.2
  rw [conns, hst, Option.map_some]

theorem Leases.conns_erase (m : Leases) (id : GoString) :
    conns (m.erase id) = Function.update m.conns id none := by
  funext k
  rw [conns, GoMap.get_erase, Function.update_apply]
  by_cases hk : id = k
  · subst hk
    rw [if_pos rfl, if_pos rfl, Option.map_none]
  · rw [if_neg hk, if_neg (Ne.symm hk), conns]

/-- What an operation does to the connections of the entries. -/
def Op.conns (op : Op) (o : GoString → Option Nat) : GoString → Option Nat :=
  match op with
  | .registerConn found now c id =>
    if (liveAt now found).isSome then Function.update o id (some c) else o
  | .teardown id => Function.update o id none
  | .onConnClosed id c => if o id = some c then Function.update o id none else o
  | _ => o

theorem Op.effect_conns (op : Op) (m : Leases) (n : Nat) :
    (op.effect m n).conns = op.conns m.conns := by
  cases op with
  | registerConn found now c id =>
    simp only [effect, conns, Leases.registerConn]
    cases liveAt now found with
    | none => rfl
    | some l => exact m.conns_insert id ⟨c, none⟩
  | startForward found now c id inUse =>
    simp only [effect, conns]
    split
    · rfl
    · rename_i r hr
      obtain ⟨_, _, _, st, hst, _, _, hm⟩ := Leases.startForward_spec hr
      rw [hm]
      exact Leases.conns_insert_same hst (some n)
  | teardown id =>
    simp only [effect, conns, Leases.teardown]
    split
    · rename_i hn
      refine (Function.update_eq_self_iff.2 ?_).symm
      rw [Leases.conns, hn, Option.map_none]
    · exact m.conns_erase id
  | cancelForward id c =>
    simp only [effect, conns, Leases.cancelForward]
    split
    · rfl
    · rename_i st hst
      split
      · rfl
      · split
        · exact Leases.conns_insert_same hst none
        · rfl
  | onConnClosed id c =>
    simp only [effect, conns, Leases.onConnClosed]
    split
    · rename_i hn
      simp [Leases.conns, hn]
    · rename_i st hst
      have hc : m.conns id = some st.conn := by rw [Leases.conns, hst, Option.map_some]
      simp only [hc, Option.some.injEq]
      split
      · exact m.conns_erase id
      · rfl
  | accept => rfl
  | visit => rfl
  | close => rfl

/-- The lease and the connection of a `RegisterConn` that succeeds. -/
def Op.registers : Op → Option (GoString × Nat)
  | .registerConn found now c id => (liveAt now found).map fun _ => (id, c)
  | _ => none

theorem Op.conns_of_registers {op : Op} {id : GoString} {c : Nat}
    (h : op.registers = some (id, c)) (o : GoString → Option Nat) : op.conns o id = some c := by
  cases op with
  | registerConn found now c' id' =>
    obtain ⟨l, hl, he⟩ := Option.map_eq_some_iff.1 h
    cases he
    simp only [conns, hl, Option.isSome_some, if_true, Function.update_self]
  | _ => cases h

theorem Op.conns_of_not_registers {op : Op} {id : GoString} {c : Nat}
    (h : ∀ c', op.registers ≠ some (id, c')) (o : GoString → Option Nat) :
    op.conns o id = some c ↔
      o id = some c ∧ op ≠ .teardown id ∧ op ≠ .onConnClosed id c := by
  cases op with
  | registerConn found now c' id' =>
    simp only [conns]
    split
    · rename_i hs
      obtain ⟨l, hl⟩ := Option.isSome_iff_exists.1 hs
      have hne : id ≠ id' := by
        rintro rfl
        exact h c' (by rw [registers, hl, Option.map_some])
      simp [Function.update_of_ne hne]
    · simp
  | teardown id' =>
    by_cases he : id = id'
    · simp [conns, he]
    · simp [conns, Function.update_of_ne he, Ne.symm he]
  | onConnClosed id' c' =>
    simp only [conns]
    by_cases he : id = id'
    · subst he
      split
      · rename_i hc
        simp [hc]
      · rename_i hc
        simp only [ne_eq, reduceCtorEq, not_false_eq_true, onConnClosed.injEq, true_and]
        constructor
        · rintro ho
          exact ⟨ho, fun he => hc (he ▸ ho)⟩
        · exact And.left
    · split <;> simp [Function.update_of_ne he, Ne.symm he]
  | startForward => simp [conns]
  | cancelForward => simp [conns]
  | accept => simp [conns]
  | visit => simp [conns]
  | close => simp [conns]

/-- The last successful `RegisterConn` of the lease is by the connection, and `post` is what
came after it. -/
def LastRegister (ops : List Op) (id : GoString) (c : Nat) (post : List Op) : Prop :=
  ∃ pre op, ops = pre ++ op :: post ∧ op.registers = some (id, c) ∧
    ∀ op' ∈ post, ∀ c', op'.registers ≠ some (id, c')

theorem lastRegister_snoc {ops post : List Op} {op : Op} {id : GoString} {c : Nat} :
    LastRegister (ops ++ [op]) id c post ↔ (op.registers = some (id, c) ∧ post = []) ∨
      (∀ c', op.registers ≠ some (id, c')) ∧
        ∃ post', post = post' ++ [op] ∧ LastRegister ops id c post' := by
  constructor
  · rintro ⟨pre, op₁, he, hr, hn⟩
    rcases List.eq_nil_or_concat post with rfl | ⟨post', op₂, rfl⟩
    · obtain ⟨_, hop⟩ := List.append_inj' he rfl
      cases hop
      exact .inl ⟨hr, rfl⟩
    · rw [List.concat_eq_append] at he hn ⊢
      rw [← List.cons_append, ← List.append_assoc] at he
      obtain ⟨hops, hop⟩ := List.append_inj' he rfl
      cases hop
      refine .inr ⟨hn op (by simp), post', rfl, pre, op₁, hops, hr, ?_⟩
      intro op' hop'
      exact hn op' (List.mem_append_left _ hop')
  · rintro (⟨hr, rfl⟩ | ⟨hn, post', rfl, pre, op₁, rfl, hr, hn'⟩)
    · exact ⟨ops, op, rfl, hr, fun _ h => nomatch h⟩
    · refine ⟨pre, op₁, by simp, hr, ?_⟩
      intro op' hop'
      rcases List.mem_append.1 hop' with h | h
      · exact hn' op' h
      · rw [List.mem_singleton.1 h]
        exact hn

namespace Manager

variable {m m' : Manager} {id : GoString} {p c n : Nat} {st st' : Session} {cap : Int} {op : Op}
  {ops : List Op}

/-- The connection of an entry is the last one registered, if nothing after that drops it. -/
theorem Run.conns_iff (h : Run cap ops m) : m.view.conns id = some c ↔
    ∃ post, LastRegister ops id c post ∧ .teardown id ∉ post ∧ .onConnClosed id c ∉ post := by
  induction h generalizing c with
  | nil =>
    have hn : (empty.view.conns id : Option Nat) = none := by
      rw [Leases.conns, get_view, entry, empty, GoMap.get_empty]
      rfl
    rw [hn]
    constructor
    · intro h
      cases h
    · rintro ⟨post, ⟨pre, op, he, _⟩, _⟩
      simp at he
  | @snoc ops m op m' hr hst ih =>
    have hstep : m'.view.conns = op.conns m.view.conns := by
      rw [(step_view hr.sound hst).2, Op.effect_conns]
    rw [hstep]
    by_cases hreg : ∃ c', op.registers = some (id, c')
    · obtain ⟨c', hc'⟩ := hreg
      rw [Op.conns_of_registers hc']
      constructor
      · rintro ⟨⟩
        exact ⟨[], lastRegister_snoc.2 (.inl ⟨hc', rfl⟩), List.not_mem_nil, List.not_mem_nil⟩
      · rintro ⟨post, hl, _⟩
        rcases lastRegister_snoc.1 hl with ⟨hc, _⟩ | ⟨hn, _⟩
        · rw [hc] at hc'
          cases hc'
          rfl
        · exact absurd hc' (hn c')
    · have hno : ∀ c', op.registers ≠ some (id, c') := fun c' hc' => hreg ⟨c', hc'⟩
      rw [Op.conns_of_not_registers hno, ih]
      constructor
      · rintro ⟨⟨post, hl, ht, hc⟩, hnt, hnc⟩
        refine ⟨post ++ [op], lastRegister_snoc.2 (.inr ⟨hno, post, rfl, hl⟩), ?_, ?_⟩
        · simp [ht, Ne.symm hnt]
        · simp [hc, Ne.symm hnc]
      · rintro ⟨post, hl, ht, hc⟩
        rcases lastRegister_snoc.1 hl with ⟨hr, _⟩ | ⟨_, post', rfl, hl'⟩
        · exact absurd hr (hno c)
        · simp only [List.mem_append, List.mem_singleton, not_or] at ht hc
          exact ⟨⟨post', hl', ht.1, hc.1⟩, Ne.symm ht.2, Ne.symm hc.2⟩

/-- The connection can do nothing to the manager through the lease. -/
structure Inert (m : Manager) (id : GoString) (c : Nat) : Prop where
  start : ∀ found now inUse, m.startForward found now c id inUse = .error .leaseGone
  started : ∀ cap found now inUse, m.step cap (.startForward found now c id inUse) = some m
  cancel : m.cancelForward id c = (m, [])
  leave : m.onConnClosed id c = (m, [])

theorem inert_of_ne (h : ∀ p st, m.entry id = some (p, st) → st.conn ≠ c) : m.Inert id c := by
  have hstart : ∀ found now inUse, m.startForward found now c id inUse = .error .leaseGone := by
    intro found now inUse
    rw [startForward]
    split
    · rfl
    · split
      · rfl
      · rename_i p st he
        rw [if_pos (h p st he)]
  refine ⟨hstart, ?_, ?_, ?_⟩
  · intro cap found now inUse
    simp only [step, hstart]
  · rw [cancelForward]
    split
    · rfl
    · rename_i p st he
      split
      · rfl
      · rw [if_neg (h p st he)]
  · rw [onConnClosed]
    split
    · rfl
    · rename_i p st he
      rw [if_neg (h p st he)]

/-- The last successful `RegisterConn` wins the entry, which is dropped by a `Teardown` or by the
end of its connection and by nothing else; every other connection is inert. -/
theorem last_writer_wins (h : Run cap ops m) :
    (∀ id p st, m.entry id = some (p, st) → ∃ post, LastRegister ops id st.conn post) ∧
    (∀ id : GoString, m.leases[id]? = none ↔ ∀ c post, LastRegister ops id c post →
      .teardown id ∈ post ∨ .onConnClosed id c ∈ post) ∧
    ∀ id c, (∀ p st, m.entry id = some (p, st) → st.conn ≠ c) → m.Inert id c := by
  refine ⟨?_, ?_, fun id c hne => inert_of_ne hne⟩
  · intro id p st he
    have hc : m.view.conns id = some st.conn := by
      rw [Leases.conns, get_view, he]
      rfl
    obtain ⟨post, hl, _⟩ := h.conns_iff.1 hc
    exact ⟨post, hl⟩
  · intro id
    have hnone : m.leases[id]? = none ↔ ∀ c, m.view.conns id ≠ some c := by
      rw [← Option.eq_none_iff_forall_ne_some, Leases.conns, get_view, entry]
      cases hp : m.leases[id]? with
      | none => simp
      | some p => simp [List.getElem?_eq_getElem (h.sound.valid id p hp)]
    rw [hnone]
    apply forall_congr'
    intro c
    rw [ne_eq, h.conns_iff, not_exists]
    apply forall_congr'
    intro post
    tauto

/-- The first connection cancels and leaves after the second one has taken over. -/
def staleOps : List Op :=
  [sampleRegister 0, sampleForward 0, sampleRegister 1, sampleForward 1,
    .cancelForward (lit "a") 0, .onConnClosed (lit "a") 0]

theorem last_writer_wins_stale :
    ∃ m, Run 1 staleOps m ∧ (m.entry (lit "a")).map (fun e => (e.2.conn, e.2.forward)) =
      some (1, some 1) ∧ (∃ post, LastRegister staleOps (lit "a") 1 post) ∧
      m.Inert (lit "a") 0 := by
  obtain ⟨m, hr, he⟩ := Run.of_exec 1 staleOps (fun m =>
    (m.entry (lit "a")).map (fun e => (e.2.conn, e.2.forward)) = some (1, some 1))
    (by decide)
  obtain ⟨⟨p, st⟩, hst, hc⟩ := Option.map_eq_some_iff.1 he
  obtain ⟨hconn, _⟩ := Prod.mk.inj hc
  obtain ⟨hlast, _, hinert⟩ := last_writer_wins hr
  refine ⟨m, hr, he, ?_, hinert (lit "a") 0 ?_⟩
  · have hl := hlast (lit "a") p st hst
    rwa [hconn] at hl
  · intro p' st' he'
    rw [hst] at he'
    cases he'
    rw [hconn]
    exact one_ne_zero

end Manager

end HyruleProxy
