import HyruleProxy.ControlAPI
import HyruleProxy.Usable

namespace HyruleProxy
set_option autoImplicit true

namespace ControlAPI

variable {a : API} {g g' : Gateway} {s : Store} {env : Env} {r : HTTPRequest Body}
  {x : Arrival} {xs : List Arrival}

section Purge

/-- The answer to a request without the token, whatever the daemon holds. -/
def refusal (r : HTTPRequest Body) : Answer :=
  match ServeMux.route router r.method r.path with
  | .found op _ => .handled op (writeError 401 (lit "unauthorized"))
  | .redirect path => .redirected path
  | .methodNotAllowed allow => .methodNotAllowed allow
  | .notFound => .notFound

/-- The arrivals that the daemon listens to. -/
def heard (a : API) : Arrival → Bool
  | .request r _ => r.authorized a.token
  | .mark .. => true

theorem serve_refused (h : r.authorized a.token = false) (g : Gateway) (env : Env) :
    (serve a g env r).1 = refusal r ∧ (serve a g env r).2.store = g.store := by
  rw [serve, refusal]
  cases ServeMux.route router r.method r.path with
  | found op values =>
    have hw : a.withAuth g.store env op (values.headD []) r =
        (writeError 401 (lit "unauthorized"), g.store) := by
      rw [API.withAuth, h, if_neg (by decide)]
    simp only [hw, and_self]
  | redirect path => exact ⟨rfl, rfl⟩
  | methodNotAllowed allow => exact ⟨rfl, rfl⟩
  | notFound => exact ⟨rfl, rfl⟩

theorem step_congr (h : g.store = g'.store) (x : Arrival) :
    (step a g x).1 = (step a g' x).1 ∧ (step a g x).2.store = (step a g' x).2.store := by
  cases x with
  | request r env =>
    simp only [step, serve, h]
    cases ServeMux.route router r.method r.path with
    | found op values => exact ⟨rfl, rfl⟩
    | redirect path => exact ⟨rfl, h⟩
    | methodNotAllowed allow => exact ⟨rfl, h⟩
    | notFound => exact ⟨rfl, h⟩
  | mark id cutoff commits => simp only [step, h, and_self]

theorem step_quiet (h : heard a x = false) (g : Gateway) : (step a g x).2.store = g.store := by
  cases x with
  | request r env => exact (serve_refused h g env).2
  | mark => cases h

theorem step_refused (g : Gateway) (x : Arrival) : ∀ r env, x = .request r env →
    r.authorized a.token = false → (step a g x).1 = some (refusal r) := by
  rintro r env rfl hr
  exact congrArg some (serve_refused hr g env).1

/-- Requests without the token leave no trace: the leases and the answers to everyone else are as if
they had not come, and what they are told depends on their method and path alone. A request has the
token when its header is the token between blanks after `Bearer`. -/
theorem unauthorized_invisible (a : API) (g : Gateway) (xs : List Arrival) :
    (run a g xs).2.store = (run a g (xs.filter (heard a))).2.store ∧
    ((xs.zip (run a g xs).1).filter fun y => heard a y.1).map Prod.snd =
      (run a g (xs.filter (heard a))).1 ∧
    (∀ r env ans, (.request r env, ans) ∈ xs.zip (run a g xs).1 → heard a (.request r env) = false →
      ans = some (refusal r)) ∧
    ∀ r env, heard a (.request r env) = true ↔ Trimmed spaceTexts a.token ∧
      ∃ left right, Blank spaceTexts left ∧ Blank spaceTexts right ∧
        headerGet r.header (lit "Authorization") =
          lit "Bearer " ++ (left ++ (a.token ++ right)) := by
  obtain ⟨hstore, hans⟩ := runOut_purge (step a) Gateway.store (heard a)
    (fun _ _ x h => step_congr h x) (fun g _ h => step_quiet h g)
    (show g.store = g.store from rfl) xs
  refine ⟨hstore, hans, ?_, fun r env => bearerOK_iff⟩
  intro r env ans hm hr
  exact runOut_answers (step a) (Q := fun x ans => ∀ r env, x = .request r env →
    r.authorized a.token = false → ans = some (refusal r)) step_refused g xs _ hm r env rfl hr

end Purge

end ControlAPI

namespace Store

variable {s : Store} {id : GoString} {l : Lease} {r : Nat} {p : CreateParams} {env : CreateEnv}

theorem Linked.get_install (h : s.Linked) (l : Lease) :
    (s.install l).get = Function.update s.get l.leaseID (some l) := by
  funext id
  by_cases hid : l.leaseID = id
  · subst hid
    rw [Function.update_self, get_eq_some]
    exact ⟨s.heap.length, by rw [byID_install, if_pos rfl], heap_install_self l⟩
  · rw [Function.update_of_ne (Ne.symm hid), get, deref, byID_install, if_neg hid]
    cases hr : s.byID[id]? with
    | none => simp only [get, deref, hr, Option.bind_none]
    | some r =>
      obtain ⟨l', hl', _⟩ := h.byID hr
      simp only [get, deref, hr, Option.bind_some]
      rw [heap_install l hl', hl']

theorem Linked.get_set (h : s.Linked) (hr : s.byID[id]? = some r) (hl : s.heap[r]? = some l)
    (l' : Lease) :
    ({ s with heap := s.heap.set r l' } : Store).get = Function.update s.get id (some l') := by
  funext id'
  by_cases hid : id = id'
  · subst hid
    rw [Function.update_self, get_eq_some]
    exact ⟨r, hr, List.getElem?_set_self (heap_lt hl)⟩
  · rw [Function.update_of_ne (Ne.symm hid)]
    simp only [get, deref]
    cases hr' : s.byID[id']? with
    | none => rfl
    | some r' =>
      have hne : r ≠ r' := by
        intro he
        subst he
        have h₁ := h.own_id (get_eq_some.2 ⟨r, hr, hl⟩)
        have h₂ := h.own_id (get_eq_some.2 ⟨r, hr', hl⟩)
        exact hid (h₁.symm.trans h₂)
      simp only [Option.bind_some, List.getElem?_set_ne hne]

theorem Removes.get_store (h : s.Removes id commits l) :
    (s.remove id commits).store.get = Function.update s.get id none := by
  funext id'
  rw [h.outcome, Function.update_apply]
  simp only [Store.get, Store.deref, GoMap.get_erase, eq_comm (a := id)]
  split <;> rfl

/-- The result of a call tells what it has done to the leases, also when a token is minted twice. -/
theorem Linked.effect (h : s.Linked) (c : Call) :
    (c.run s).store.get = c.effect s.get (c.run s).result := by
  have hremove : ∀ id commits, (s.remove id commits).store.get =
      Call.effect s.get (.revoke id commits) (.done (s.remove id commits).result) := by
    intro id commits
    rcases s.remove_cases id commits with ⟨e, he⟩ | ⟨l, hr⟩
    · rw [he]
      rfl
    · rw [hr.get_store, hr.outcome]
      rfl
  cases c with
  | create p env =>
    simp only [Call.run, Outcome.map]
    rcases s.create_cases h.cursor p env with ⟨l, hg, he⟩ | ⟨a, hf⟩ | ⟨l, a, db, hc⟩
    · rw [he]
      exact (Function.update_eq_self_iff.2 hg.symm).symm
    · obtain ⟨e, he⟩ := hf.result
      rw [hf.store, he]
      rfl
    · have h' : ({ s with alloc := a, db := db } : Store).Linked := ⟨h.byID, h.byToken, hc.cursor⟩
      rw [hc.outcome, h'.get_install, hc.leaseID]
      rfl
  | extend id d o =>
    simp only [Call.run, Outcome.map]
    rcases s.extend_cases id d o with ⟨e, he⟩ | ⟨l, r, db, hr⟩
    · rw [he]
      rfl
    · rw [hr.outcome]
      exact h.get_set hr.ref hr.cell _
  | revoke id commits => exact hremove id commits
  | markExpired id commits =>
    refine (hremove id commits).trans ?_
    simp only [Call.run, Outcome.map, Store.markExpired]
    cases (s.remove id commits).result <;> rfl
  | markExpiredIfBefore id cutoff commits =>
    simp only [Call.run, Outcome.map]
    rcases s.markExpiredIfBefore_cases id cutoff commits with ⟨w, e, he⟩ | ⟨l, hr, _, he⟩
    · rw [he]
      rfl
    · rw [he]
      exact hr.get_store

end Store

namespace ControlAPI

variable {a : API} {g : Gateway} {s : Store} {env : Env}

section Cloud

/-- What the cloud knows of a lease. -/
structure Known where
  token : GoString
  port : Int
  expiresAt : Time
  deriving DecidableEq

abbrev CloudView := GoString → Option Known

def leaseKnown (l : Lease) : Known := ⟨l.token, l.allocatedPort, l.expiresAt⟩

/-- The path value of a request. -/
def pathID (r : HTTPRequest Body) : GoString :=
  match ServeMux.route router r.method r.path with
  | .found _ values => values.headD []
  | _ => []

/-- What the cloud learns from a successful answer about the leases it has asked for. -/
def learnFrom (v : CloudView) (id : GoString) : Operation → ResponseBody → CloudView
  | .create, .lease resp =>
    Function.update v resp.leaseID (some ⟨resp.token, resp.port, resp.expiresAt⟩)
  | .extend, .lease resp => Function.update v resp.leaseID
      ((v resp.leaseID).map fun k => { k with expiresAt := resp.expiresAt })
  | .revoke, _ => Function.update v id none
  | _, _ => v

def learn (v : CloudView) (r : HTTPRequest Body) : Answer → CloudView
  | .handled op resp =>
    if 200 ≤ resp.status ∧ resp.status < 300 then learnFrom v (pathID r) op resp.body else v
  | _ => v

/-- The view of the cloud after an arrival, which it sees only if it gets an answer. -/
def hear (v : CloudView) (y : Arrival × Option Answer) : CloudView :=
  match y with
  | (.request r _, some ans) => learn v r ans
  | _ => v

/-- What a handled request has done to the leases. -/
inductive Effect (a : API) (env : Env) (s s' : Store) (id : GoString) :
    Operation → Response → Prop where
  | quiet (op : Operation) (resp : Response) (hget : s'.get = s.get)
      (hresp : ¬(200 ≤ resp.status ∧ resp.status < 300) ∨ op = .list ∨ op = .get ∨ op = .health) :
      Effect a env s s' id op resp
  | created (l : Lease) (hget : s'.get = Function.update s.get l.leaseID (some l))
      (hold : ∀ l', s.get l.leaseID = some l' → l' = l) :
      Effect a env s s' id .create ⟨200, .lease (toResponse a.cfg env.stats l true)⟩
  | extended (l : Lease) (d : Duration) (hl : s.get id = some l)
      (hget : s'.get = Function.update s.get id (some { l with expiresAt := l.expiresAt + d })) :
      Effect a env s s' id .extend ⟨200, .lease (toResponse a.cfg env.stats
        { l with expiresAt := l.expiresAt + d } false)⟩
  | revoked (hget : s'.get = Function.update s.get id none) :
      Effect a env s s' id .revoke ⟨204, .empty⟩

theorem effect_create (h : s.Linked) (a : API) (env : Env) (id : GoString) (body : Body) :
    Effect a env s (a.handleCreate s env body).2 id .create (a.handleCreate s env body).1 := by
  have hbad : ∀ text, Effect a env s s id .create (writeError 400 text) :=
    fun text => .quiet _ _ rfl (.inl (by simp [writeError]))
  rw [API.handleCreate]
  cases decodeJSON decodeCreate body with
  | error e => exact hbad _
  | ok req =>
    simp only
    split
    · exact hbad _
    · split
      · exact hbad _
      · rw [API.createLease]
        generalize hp : (⟨req.leaseID, clampDuration a.cfg req.durationSeconds.toInt,
          req.allowlistCIDRs⟩ : CreateParams) = p
        generalize (⟨env.portInUse, env.rand, env.now, env.persist⟩ : CreateEnv) = cenv
        have he : (s.create p cenv).store.get =
            Call.effect s.get (.create p cenv) (.lease (s.create p cenv).result) :=
          h.effect (.create p cenv)
        have hlinked := h.create p cenv
        have hold : ∀ l', s.get p.leaseID = some l' → (s.create p cenv).result = .ok l' := by
          intro l' hl'
          simp only [Store.create, hl']
        generalize s.create p cenv = out at he hlinked hold
        obtain ⟨result, s', _⟩ := out
        cases result with
        | error e =>
          refine .quiet _ _ he (.inl ?_)
          cases e <;> simp [Except.map, API.createStatus, writeError]
        | ok l =>
          have hl : s'.get p.leaseID = some l := by
            rw [he]
            exact Function.update_self ..
          have hid := hlinked.own_id hl
          refine .created l ?_ ?_
          · rw [hid]
            exact he
          · intro l' hl'
            rw [hid] at hl'
            exact (Except.ok.inj (hold l' hl')).symm

theorem effect_extend (h : s.Linked) (a : API) (env : Env) (id : GoString) (body : Body) :
    Effect a env s (a.handleExtend s env id body).2 id .extend
      (a.handleExtend s env id body).1 := by
  have hbad : ∀ text, Effect a env s s id .extend (writeError 400 text) :=
    fun text => .quiet _ _ rfl (.inl (by simp [writeError]))
  rw [API.handleExtend]
  cases decodeJSON decodeExtend body with
  | error e => exact hbad _
  | ok req =>
    simp only
    split
    · exact hbad _
    · rw [API.extendLease]
      generalize clampDuration a.cfg req.durationSeconds.toInt = d
      have he := h.effect (.extend id d env.persist)
      simp only [Call.run, Outcome.map] at he
      rcases s.extend_cases id d env.persist with ⟨e, hr⟩ | ⟨l, r, db, hr⟩
      · rw [hr]
        refine .quiet _ _ rfl (.inl ?_)
        cases e <;> simp [Except.map, API.extendStatus, writeError]
      · rw [hr.outcome] at he ⊢
        exact .extended l d hr.get he

theorem effect_revoke (s : Store) (a : API) (env : Env) (id : GoString) :
    Effect a env s (API.handleRevoke s env id).2 id .revoke (API.handleRevoke s env id).1 := by
  rw [API.handleRevoke, API.revokeLease, Store.revoke]
  rcases s.remove_cases id (env.commits id) with ⟨e, hr⟩ | ⟨l, hr⟩
  · rw [hr]
    refine .quiet _ _ rfl (.inl ?_)
    cases e <;> simp [API.revokeStatus, writeError]
  · have hget := hr.get_store
    rw [hr.outcome] at hget ⊢
    exact .revoked hget

theorem effect_withAuth (h : s.Linked) (a : API) (env : Env) (op : Operation) (id : GoString)
    (r : HTTPRequest Body) :
    Effect a env s (a.withAuth s env op id r).2 id op (a.withAuth s env op id r).1 := by
  rw [API.withAuth]
  split
  · cases op with
    | create => exact effect_create h a env id r.body
    | list => exact .quiet _ _ rfl (.inr (.inl rfl))
    | get => exact .quiet _ _ rfl (.inr (.inr (.inl rfl)))
    | extend => exact effect_extend h a env id r.body
    | revoke => exact effect_revoke s a env id
    | health => exact .quiet _ _ rfl (.inr (.inr (.inr rfl)))
  · exact .quiet _ _ rfl (.inl (by simp [writeError]))

theorem linked_handle (h : s.Linked) (a : API) (env : Env) (op : Operation) (id : GoString)
    (body : Body) : (a.handle s env op id body).2.Linked := by
  cases op with
  | create =>
    rw [API.handle, API.handleCreate]
    cases decodeJSON decodeCreate body with
    | error e => exact h
    | ok req =>
      simp only
      split
      · exact h
      · split
        · exact h
        · exact h.create _ _
  | extend =>
    rw [API.handle, API.handleExtend]
    cases decodeJSON decodeExtend body with
    | error e => exact h
    | ok req =>
      simp only
      split
      · exact h
      · exact h.extend _ _ _
  | revoke => exact h.remove id _
  | list => exact h
  | get => exact h
  | health => exact h

theorem linked_step (h : g.store.Linked) (x : Arrival) : (step a g x).2.store.Linked := by
  cases x with
  | request r env =>
    simp only [step, serve]
    cases ServeMux.route router r.method r.path with
    | found op values =>
      simp only [API.withAuth]
      split
      · exact linked_handle h a env op _ _
      · exact h
    | redirect => exact h
    | methodNotAllowed => exact h
    | notFound => exact h
  | mark id cutoff commits => exact h.call (.markExpiredIfBefore id cutoff commits)

/-- The cloud's view and the daemon agree about an id, or the daemon has swept the lease at or after
the expiry that the cloud knows. -/
def AgreesOn (seen : List Arrival) (v : CloudView) (s : Store) (id : GoString) : Prop :=
  v id = (s.get id).map leaseKnown ∨ s.get id = none ∧ ∃ k cutoff commits, v id = some k ∧
    .mark id cutoff commits ∈ seen ∧ k.expiresAt ≤ cutoff

theorem AgreesOn.mono {seen seen' : List Arrival} {v v' : CloudView} {s s' : Store}
    {id : GoString} (h : AgreesOn seen v s id) (hseen : ∀ x ∈ seen, x ∈ seen') (hv : v' id = v id)
    (hs : s'.get id = s.get id) : AgreesOn seen' v' s' id := by
  rcases h with h | ⟨hn, k, cutoff, commits, hk, hm, he⟩
  · exact .inl (by rw [hv, hs, h])
  · exact .inr ⟨by rw [hs, hn], k, cutoff, commits, by rw [hv, hk], hseen _ hm, he⟩

theorem agrees_learn {seen : List Arrival} {v : CloudView} {s s' : Store} {op : Operation}
    {resp : Response} {r : HTTPRequest Body} (hlinked : s.Linked)
    (h : ∀ id, AgreesOn seen v s id) (he : Effect a env s s' (pathID r) op resp) (id : GoString) :
    AgreesOn seen (learn v r (.handled op resp)) s' id := by
  cases he with
  | quiet _ _ hget hresp =>
    have hv : learn v r (.handled op resp) = v := by
      rw [learn]
      split
      · rename_i hok
        rcases hresp with hn | rfl | rfl | rfl
        · exact absurd hok hn
        · rfl
        · rfl
        · rfl
      · rfl
    exact (h id).mono (fun _ hx => hx) (by rw [hv]) (by rw [hget])
  | created l hget hold =>
    have hv : learn v r (.handled .create ⟨200, .lease (toResponse a.cfg env.stats l true)⟩) =
        Function.update v l.leaseID (some (leaseKnown l)) := rfl
    by_cases hid : id = l.leaseID
    · subst hid
      exact .inl (by rw [hv, hget, Function.update_self, Function.update_self]; rfl)
    · exact (h id).mono (fun _ hx => hx) (by rw [hv, Function.update_of_ne hid])
        (by rw [hget, Function.update_of_ne hid])
  | extended l d hl hget =>
    have hv : learn v r (.handled .extend ⟨200, .lease (toResponse a.cfg env.stats
        { l with expiresAt := l.expiresAt + d } false)⟩) =
        Function.update v l.leaseID
          ((v l.leaseID).map fun k => { k with expiresAt := l.expiresAt + d }) := rfl
    have hown := (hlinked.own_id hl).symm
    rw [hown] at hl hget
    by_cases hid : id = l.leaseID
    · subst hid
      -- The cloud knew the lease, which the daemon has.
      have hk : v l.leaseID = some (leaseKnown l) := by
        rcases h l.leaseID with hk | ⟨hn, _⟩
        · rw [hk, hl]
          rfl
        · rw [hn] at hl
          cases hl
      exact .inl (by rw [hv, hget, Function.update_self, Function.update_self, hk]; rfl)
    · exact (h id).mono (fun _ hx => hx) (by rw [hv, Function.update_of_ne hid])
        (by rw [hget, Function.update_of_ne hid])
  | revoked hget =>
    have hv : learn v r (.handled .revoke ⟨204, .empty⟩) = Function.update v (pathID r) none := rfl
    by_cases hid : id = pathID r
    · subst hid
      exact .inl (by rw [hv, hget, Function.update_self, Function.update_self]; rfl)
    · exact (h id).mono (fun _ hx => hx) (by rw [hv, Function.update_of_ne hid])
        (by rw [hget, Function.update_of_ne hid])

theorem agrees_step {seen : List Arrival} {v : CloudView} (hlinked : g.store.Linked)
    (h : ∀ id, AgreesOn seen v g.store id) (x : Arrival) (id : GoString) :
    AgreesOn (seen ++ [x]) (hear v (x, (step a g x).1)) (step a g x).2.store id := by
  have hseen : ∀ y ∈ seen, y ∈ seen ++ [x] := fun y hy => List.mem_append_left _ hy
  cases x with
  | request r env =>
    simp only [step, serve, hear]
    cases hroute : ServeMux.route router r.method r.path with
    | found op values =>
      have hid : values.headD [] = pathID r := by
        rw [pathID, hroute]
      have he := effect_withAuth hlinked a env op (values.headD []) r
      rw [hid] at he
      simp only [hid]
      exact agrees_learn hlinked (fun id => (h id).mono hseen rfl rfl) he id
    | redirect => exact (h id).mono hseen rfl rfl
    | methodNotAllowed => exact (h id).mono hseen rfl rfl
    | notFound => exact (h id).mono hseen rfl rfl
  | mark i cutoff commits =>
    simp only [step, hear]
    rcases g.store.markExpiredIfBefore_cases i cutoff commits with ⟨w, e, he⟩ | ⟨l, hr, hl, he⟩
    · rw [he]
      exact (h id).mono hseen rfl rfl
    · rw [he]
      by_cases hid : id = i
      · subst hid
        rcases h id with hk | ⟨hn, _⟩
        · refine .inr ⟨by rw [hr.get_store, Function.update_self], leaseKnown l, cutoff, commits,
            by rw [hk, hr.get]; rfl, List.mem_append_right _ (List.mem_singleton_self _), hl⟩
        · rw [hr.get] at hn
          cases hn
      · exact (h id).mono hseen rfl (by rw [hr.get_store, Function.update_of_ne hid])

theorem agrees_run (seen : List Arrival) {v : CloudView} (hlinked : g.store.Linked)
    (h : ∀ id, AgreesOn seen v g.store id) (xs : List Arrival) (id : GoString) :
    AgreesOn (seen ++ xs) ((xs.zip (run a g xs).1).foldl hear v) (run a g xs).2.store id := by
  induction xs generalizing seen v g with
  | nil =>
    rw [List.append_nil]
    exact h id
  | cons x xs ih =>
    have hrest := ih (seen ++ [x]) (linked_step hlinked x) (agrees_step (a := a) hlinked h x)
    rw [List.append_assoc] at hrest
    exact hrest

/-- Whatever requests, failures and sweeps there are, a cloud that believes the successful answers
knows the token, port and expiry of every lease that the daemon holds, and knows no other lease but
those that were swept when they had expired. -/
theorem cloud_view_exact {v : CloudView} (a : API) (hlinked : g.store.Linked) (xs : List Arrival)
    (hv : ∀ id, v id = (g.store.get id).map leaseKnown) (id : GoString) :
    ((xs.zip (run a g xs).1).foldl hear v) id = ((run a g xs).2.store.get id).map leaseKnown ∨
    (run a g xs).2.store.get id = none ∧ ∃ k cutoff commits,
      ((xs.zip (run a g xs).1).foldl hear v) id = some k ∧ .mark id cutoff commits ∈ xs ∧
        k.expiresAt ≤ cutoff :=
  agrees_run [] hlinked (fun id => .inl (hv id)) xs id

def sampleAPI : API :=
  ⟨⟨lit "tun.example", 2222, 3600, 86400⟩, lit "0123456789abcdef0123456789abcdef", asciiTables⟩

/-- A create of a lease, with these headers. -/
def sampleCreate (id : String) (header : List (GoString × GoString)) : Arrival :=
  .request ⟨lit "POST", lit "/v1/leases", header,
      ⟨lit ("\x7b\"lease_id\":\"" ++ id ++ "\",\"duration_seconds\":60\x7d\n"), none⟩⟩
    ⟨⟨fun _ => false, some (List.replicate 20 7), 5, .commits, fun _ => true, fun ids => ids,
      fun _ => ⟨false, 0, 0, 0⟩⟩, []⟩

def sampleHeader : List (GoString × GoString) :=
  [(lit "Authorization", lit "Bearer  " ++ sampleAPI.token)]

/-- A create with the token, one without it, and a sweep after the expiry. -/
def sampleArrivals : List Arrival :=
  [sampleCreate "a" sampleHeader, sampleCreate "b" [], .mark (lit "a") (10 ^ 18) true]

theorem cloud_view_sample : ∃ s, openStore DB.empty 20000 20001 0 true = some s ∧
    ((sampleArrivals.zip (run sampleAPI ⟨s, []⟩ sampleArrivals).1).foldl hear fun _ => none)
      (lit "a") ≠ none ∧
    ∀ id, ((sampleArrivals.zip (run sampleAPI ⟨s, []⟩ sampleArrivals).1).foldl hear
      fun _ => none) id = ((run sampleAPI ⟨s, []⟩ sampleArrivals).2.store.get id).map leaseKnown ∨
    (run sampleAPI ⟨s, []⟩ sampleArrivals).2.store.get id = none := by
  obtain ⟨s, ho, hop⟩ :=
    openStore_spec Machine.keeps_empty.sound Machine.keeps_empty.db 20000 20001 0
  have hblank : openStore DB.empty 20000 20001 0 true = some _ := rfl
  refine ⟨s, ho, ?_, ?_⟩
  · rw [show openStore DB.empty 20000 20001 0 true = some s from ho] at hblank
    cases hblank
    decide
  · intro id
    rcases cloud_view_exact (g := ⟨s, []⟩) sampleAPI hop.inv.linked sampleArrivals (by
      intro id
      rw [show (Gateway.mk s []).store.get = _ from hop.get]) id with h | ⟨h, _⟩
    · exact .inl h
    · exact .inr h

end Cloud

section Counters

/-- The statuses with which the handlers answer. -/
def statuses : List Int := [200, 204, 400, 401, 404, 500, 503]

theorem createStatus_mem (a : API) (r : Except StoreError LeaseResponse) :
    (a.createStatus r).status ∈ statuses := by
  cases r with
  | ok resp => exact show (200 : Int) ∈ statuses by decide
  | error e =>
    cases e with
    | portsExhausted => exact show (503 : Int) ∈ statuses by decide
    | invalidCIDR => exact show (400 : Int) ∈ statuses by decide
    | _ => exact show (500 : Int) ∈ statuses by decide

theorem extendStatus_mem (r : Except StoreError LeaseResponse) :
    (API.extendStatus r).status ∈ statuses := by
  cases r with
  | ok resp => exact show (200 : Int) ∈ statuses by decide
  | error e =>
    cases e with
    | notFound => exact show (404 : Int) ∈ statuses by decide
    | _ => exact show (500 : Int) ∈ statuses by decide

theorem revokeStatus_mem (r : Except StoreError Unit) :
    (API.revokeStatus r).status ∈ statuses := by
  cases r with
  | ok resp => exact show (204 : Int) ∈ statuses by decide
  | error e =>
    cases e with
    | notFound => exact show (404 : Int) ∈ statuses by decide
    | _ => exact show (500 : Int) ∈ statuses by decide

theorem status_mem (a : API) (s : Store) (env : Env) (op : Operation) (id : GoString)
    (r : HTTPRequest Body) : (a.withAuth s env op id r).1.status ∈ statuses := by
  have h200 : (200 : Int) ∈ statuses := by decide
  have h400 : (400 : Int) ∈ statuses := by decide
  rw [API.withAuth]
  split
  · cases op with
    | create =>
      rw [API.handle, API.handleCreate]
      cases decodeJSON decodeCreate r.body with
      | error e => exact h400
      | ok req =>
        simp only
        split
        · exact h400
        · split
          · exact h400
          · exact createStatus_mem a _
    | list => exact h200
    | get =>
      rw [API.handle, API.handleGet]
      cases a.getLease s env id with
      | none => exact show (404 : Int) ∈ statuses by decide
      | some resp => exact h200
    | extend =>
      rw [API.handle, API.handleExtend]
      cases decodeJSON decodeExtend r.body with
      | error e => exact h400
      | ok req =>
        simp only
        split
        · exact h400
        · exact extendStatus_mem _
    | revoke => exact revokeStatus_mem _
    | health => exact h200
  · exact show (401 : Int) ∈ statuses by decide

/-- The status that package `http` sends: that of the first `WriteHeader` but for informational
ones, or 200 if something is written before. -/
def wireStatus : List WriterCall → Int
  | [] => 200
  | .write _ :: _ => 200
  | .writeHeader code :: calls =>
    if 100 ≤ code ∧ code < 200 ∧ code ≠ 101 then wireStatus calls else code

theorem StatusRecorder.status_foldl (w : StatusRecorder) (h : w.wroteHeader = true)
    (calls : List WriterCall) : (calls.foldl apply w).status = w.status := by
  induction calls generalizing w with
  | nil => rfl
  | cons call calls ih =>
    rw [List.foldl_cons]
    cases call with
    | writeHeader code =>
      rw [ih _ (by simp [apply, writeHeader, h])]
      simp [apply, writeHeader, h]
    | write body =>
      rw [ih _ (by simp [apply, write, h])]
      simp [apply, write, h]

theorem StatusRecorder.status_eq_wireStatus (calls : List WriterCall)
    (h : ∀ code, .writeHeader code ∈ calls → 200 ≤ code) :
    (calls.foldl apply new).status = wireStatus calls := by
  cases calls with
  | nil => rfl
  | cons call calls =>
    cases call with
    | writeHeader code =>
      have hcode := h code List.mem_cons_self
      rw [List.foldl_cons, status_foldl _ rfl, wireStatus, if_neg (by omega)]
      rfl
    | write body =>
      rw [List.foldl_cons, status_foldl _ rfl]
      rfl

theorem Response.exists_calls (resp : Response) : ∃ calls : List WriterCall,
    resp.writeTo .new = calls.foldl StatusRecorder.apply .new ∧
      (resp.writeTo .new).calls = calls ∧ calls.head? = some (.writeHeader resp.status) ∧
        ∀ code, .writeHeader code ∈ calls → code = resp.status := by
  rw [Response.writeTo]
  cases resp.body with
  | empty => exact ⟨[.writeHeader resp.status], rfl, rfl, rfl, by simp⟩
  | lease r => exact ⟨[.writeHeader resp.status, .write _], rfl, rfl, rfl, by simp⟩
  | leases r => exact ⟨[.writeHeader resp.status, .write _], rfl, rfl, rfl, by simp⟩
  | health r => exact ⟨[.writeHeader resp.status, .write _], rfl, rfl, rfl, by simp⟩
  | error text => exact ⟨[.writeHeader resp.status, .write _], rfl, rfl, rfl, by simp⟩

/-- What the counter is incremented with for an answer: the handler and the status that is sent. -/
def inc : Option Answer → Option (GoString × GoString)
  | some (.handled op resp) => some (op.label, itoa (wireStatus (resp.writeTo .new).calls))
  | _ => none

theorem le_of_mem_statuses (h : status ∈ statuses) : 200 ≤ status := by
  have hall : ∀ status ∈ statuses, 200 ≤ status := by decide
  exact hall status h

theorem Response.status_writeTo (resp : Response) (h : resp.status ∈ statuses) :
    (resp.writeTo .new).status = wireStatus (resp.writeTo .new).calls ∧
      (resp.writeTo .new).status = resp.status := by
  have hle := le_of_mem_statuses h
  obtain ⟨calls, hfold, hcalls, hhead, hcode⟩ := resp.exists_calls
  have hstatus := StatusRecorder.status_eq_wireStatus calls fun code hc => (hcode code hc) ▸ hle
  obtain ⟨rest, rfl⟩ := List.head?_eq_some_iff.1 hhead
  rw [hcalls, hfold, hstatus, wireStatus, if_neg (by omega)]
  exact ⟨rfl, rfl⟩

theorem incs_step (a : API) (g : Gateway) (x : Arrival) :
    (step a g x).2.incs = g.incs ++ [(step a g x).1].filterMap inc := by
  cases x with
  | request r env =>
    simp only [step, serve]
    cases ServeMux.route router r.method r.path with
    | found op values =>
      obtain ⟨hstatus, _⟩ :=
        Response.status_writeTo _ (status_mem a g.store env op (values.headD []) r)
      simp only [record, hstatus]
      rfl
    | redirect path => exact (List.append_nil _).symm
    | methodNotAllowed allow => exact (List.append_nil _).symm
    | notFound => exact (List.append_nil _).symm
  | mark id cutoff commits => exact (List.append_nil _).symm

theorem inc_step (a : API) (g : Gateway) (x : Arrival) :
    ∀ labels, inc (step a g x).1 = some labels →
      ∃ op : Operation, ∃ status ∈ statuses, labels = (op.label, itoa status) := by
  intro labels h
  cases x with
  | request r env =>
    simp only [step, serve] at h
    cases hroute : ServeMux.route router r.method r.path with
    | found op values =>
      have hmem := status_mem a g.store env op (values.headD []) r
      obtain ⟨hwire, hstatus⟩ := Response.status_writeTo _ hmem
      rw [hroute] at h
      cases h
      exact ⟨op, _, hmem, by rw [← hwire, hstatus]⟩
    | redirect path =>
      rw [hroute] at h
      cases h
    | methodNotAllowed allow =>
      rw [hroute] at h
      cases h
    | notFound =>
      rw [hroute] at h
      cases h
  | mark id cutoff commits => cases h

/-- The recorder has the status that is sent, whatever a handler does with it, and over every run
the counter is incremented once for each answer of a handler, in their order, under the handler and
that status, which is one of seven. -/
theorem requests_counted (a : API) (g : Gateway) (xs : List Arrival) :
    (∀ calls : List WriterCall, (∀ code, .writeHeader code ∈ calls → 200 ≤ code) →
      (calls.foldl StatusRecorder.apply .new).status = wireStatus calls) ∧
    (run a g xs).2.incs = g.incs ++ (run a g xs).1.filterMap inc ∧
    ∀ labels ∈ (run a g xs).1.filterMap inc,
      ∃ op : Operation, ∃ status ∈ statuses, labels = (op.label, itoa status) := by
  refine ⟨StatusRecorder.status_eq_wireStatus, ?_⟩
  induction xs generalizing g with
  | nil => exact ⟨(List.append_nil _).symm, fun _ h => absurd h List.not_mem_nil⟩
  | cons x xs ih =>
    obtain ⟨hincs, hlabels⟩ := ih (step a g x).2
    have happ : (run a g (x :: xs)).1 = [(step a g x).1] ++ (run a (step a g x).2 xs).1 := rfl
    rw [happ, List.filterMap_append]
    constructor
    · rw [← List.append_assoc, ← incs_step]
      exact hincs
    · intro labels h
      rcases List.mem_append.1 h with h | h
      · obtain ⟨ans, hans, hinc⟩ := List.mem_filterMap.1 h
        rw [List.mem_singleton.1 hans] at hinc
        exact inc_step a g x labels hinc
      · exact hlabels labels h

end Counters

end ControlAPI

end HyruleProxy
