import HyruleProxy.ControlRuns

namespace HyruleProxy
set_option autoImplicit true

namespace ControlAPI

open ServeMux

section Addresses

variable {id : GoString}

/-- The method and the path that ask for an operation on a lease, with every byte of the id
escaped. -/
def leaseRequest (op : Operation) (id : GoString) : GoString × GoString :=
  let segs := [lit "v1", lit "leases", percent id]
  match op with
  | .extend => (lit "POST", joinPath (segs ++ [lit "extend"]))
  | .revoke => (lit "DELETE", joinPath segs)
  | _ => (lit "GET", joinPath segs)

theorem forMethod_get : forMethod router (lit "GET") =
    [([.literal (lit "v1"), .literal (lit "leases")], .list),
      ([.literal (lit "v1"), .literal (lit "leases"), .wildcard], .get),
      ([.literal (lit "v1"), .literal (lit "health")], .health)] := by
  decide

theorem forMethod_post : forMethod router (lit "POST") =
    [([.literal (lit "v1"), .literal (lit "leases")], .create),
      ([.literal (lit "v1"), .literal (lit "leases"), .wildcard, .literal (lit "extend")],
        .extend)] := by
  decide

theorem forMethod_delete : forMethod router (lit "DELETE") =
    [([.literal (lit "v1"), .literal (lit "leases"), .wildcard], .revoke)] := by
  decide

theorem matchMethod_lease (h : id ≠ lit "/") :
    matchMethod router (lit "GET") [lit "v1", lit "leases", id] = some (.get, [id]) ∧
    matchMethod router (lit "POST") [lit "v1", lit "leases", id, lit "extend"] =
      some (.extend, [id]) ∧
    matchMethod router (lit "DELETE") [lit "v1", lit "leases", id] = some (.revoke, [id]) := by
  have hslash : id ≠ [ch '/'] := h
  have hhealth : lit "health" ≠ lit "leases" := by decide
  have hleases : lit "leases" ≠ [ch '/'] := by decide
  have hv1 : lit "v1" ≠ [ch '/'] := by decide
  refine ⟨?_, ?_, ?_⟩
  · simp [matchMethod, forMethod_get, matchPath, descend, hslash, hhealth, hleases, hv1]
  · simp [matchMethod, forMethod_post, matchPath, descend, hslash, hleases, hv1]
  · simp [matchMethod, forMethod_delete, matchPath, descend, hslash, hleases, hv1]

theorem route_joinPath {segs : List GoString} (hplain : ∀ seg ∈ segs, Plain seg) (hne : segs ≠ [])
    (h : matchMethod router method (segs.map pathUnescape) = some (op, values)) :
    route router method (joinPath segs) = .found op values := by
  have hclean : (if method = lit "CONNECT" then joinPath segs else cleanPath (joinPath segs)) =
      joinPath segs := by
    rw [cleanPath_joinPath hplain hne, ite_self]
  rw [route, hclean, if_neg fun hne => hne rfl, segments_joinPath hplain hne, h]

theorem route_leaseRequest (hid : id ≠ []) (hslash : id ≠ lit "/")
    (hop : op ∈ [Operation.get, .extend, .revoke]) :
    route router (leaseRequest op id).1 (leaseRequest op id).2 = .found op [id] := by
  obtain ⟨hget, hextend, hrevoke⟩ := matchMethod_lease hslash
  have hv1 : Plain (lit "v1") ∧ pathUnescape (lit "v1") = lit "v1" :=
    ⟨⟨by decide, by decide, by decide, by decide⟩, by decide⟩
  have hleases : Plain (lit "leases") ∧ pathUnescape (lit "leases") = lit "leases" :=
    ⟨⟨by decide, by decide, by decide, by decide⟩, by decide⟩
  have hend : Plain (lit "extend") ∧ pathUnescape (lit "extend") = lit "extend" :=
    ⟨⟨by decide, by decide, by decide, by decide⟩, by decide⟩
  have hplain : ∀ seg ∈ [lit "v1", lit "leases", percent id], Plain seg := by
    simp [hv1.1, hleases.1, plain_percent hid]
  have hmap : [lit "v1", lit "leases", percent id].map pathUnescape =
      [lit "v1", lit "leases", id] := by
    simp [hv1.2, hleases.2, pathUnescape_percent]
  simp only [List.mem_cons, List.not_mem_nil, or_false] at hop
  rcases hop with rfl | rfl | rfl
  · exact route_joinPath hplain (by simp) (by rw [hmap]; exact hget)
  · refine route_joinPath ?_ (by simp) ?_
    · intro seg hs
      rcases List.mem_append.1 hs with hs | hs
      · exact hplain seg hs
      · rw [List.mem_singleton.1 hs]
        exact hend.1
    · rw [List.map_append, hmap, List.map_singleton, hend.2]
      exact hextend
  · exact route_joinPath hplain (by simp) (by rw [hmap]; exact hrevoke)

theorem route_values (h : route router method path = .found op values) :
    (op ∈ [Operation.get, .extend, .revoke] ∧ ∃ id, values = [id] ∧ id ≠ [] ∧ id ≠ lit "/") ∨
      op ∉ [Operation.get, .extend, .revoke] ∧ values = [] := by
  obtain ⟨r, hr, rfl, hfits, hmethod, hclean⟩ := route_fits h
  obtain ⟨hlen, hvalues⟩ := fits_values hfits
  have hconnect : method ≠ lit "CONNECT" := by
    rintro rfl
    rcases hmethod with hm | ⟨hm, _⟩
    · have hrouter : ∀ r ∈ router, r.method ≠ lit "CONNECT" := by decide
      exact hrouter r hr hm
    · exact absurd hm (by decide)
  have hcount : ∀ r ∈ router, r.handler ∈ [Operation.get, .extend, .revoke] ∧
      r.pattern.count .wildcard = 1 ∨ r.handler ∉ [Operation.get, .extend, .revoke] ∧
      r.pattern.count .wildcard = 0 := by
    decide
  rcases hcount r hr with ⟨hop, hone⟩ | ⟨hop, hzero⟩
  · obtain ⟨id, rfl⟩ := List.length_eq_one_iff.1 (hlen.trans hone)
    obtain ⟨hmem, hslash⟩ := hvalues id List.mem_cons_self
    exact .inl ⟨hop, id, rfl, ne_nil_of_mem_segments (hclean hconnect) hmem, hslash⟩
  · exact .inr ⟨hop, List.length_eq_zero_iff.1 (hlen.trans hzero)⟩

/-- The leases that a path can name are those whose id is neither empty nor a single slash: of the
two, `POST /v1/leases` refuses only the empty one. The path with every byte of the id escaped names
each of them. -/
theorem addressable_iff (op : Operation) :
    ((∃ method path, route router method path = .found op [id]) ↔
      op ∈ [Operation.get, .extend, .revoke] ∧ id ≠ [] ∧ id ≠ lit "/") ∧
    (route router (leaseRequest op id).1 (leaseRequest op id).2 = .found op [id] ↔
      op ∈ [Operation.get, .extend, .revoke] ∧ id ≠ [] ∧ id ≠ lit "/") := by
  have hnames : ∀ {method path}, route router method path = .found op [id] →
      op ∈ [Operation.get, .extend, .revoke] ∧ id ≠ [] ∧ id ≠ lit "/" := by
    intro method path h
    rcases route_values h with ⟨hop, _, he, hid⟩ | ⟨_, he⟩
    · cases he
      exact ⟨hop, hid⟩
    · cases he
  have hroute : op ∈ [Operation.get, .extend, .revoke] ∧ id ≠ [] ∧ id ≠ lit "/" →
      route router (leaseRequest op id).1 (leaseRequest op id).2 = .found op [id] := by
    rintro ⟨hop, hid, hslash⟩
    exact route_leaseRequest hid hslash hop
  refine ⟨⟨?_, fun h => ⟨_, _, hroute h⟩⟩, hnames, hroute⟩
  rintro ⟨method, path, h⟩
  exact hnames h

end Addresses

section Stranded

variable {a : API} {g : Gateway} {l : Lease} {id : GoString}

theorem step_keeps (hlinked : g.store.Linked) (hl : g.store.get id = some l) (x : Arrival)
    (hx : ∀ r env, x = .request r env → pathID r ≠ id) :
    (step a g x).2.store.get id = some l ∨
      ∃ cutoff commits, x = .mark id cutoff commits ∧ l.expiresAt ≤ cutoff := by
  cases x with
  | request r env =>
    refine .inl ?_
    have hpath := hx r env rfl
    simp only [step, serve]
    cases hroute : route router r.method r.path with
    | found op values =>
      have hid : values.headD [] = pathID r := by
        rw [pathID, hroute]
      have heffect := effect_withAuth hlinked a env op (pathID r) r
      simp only [hid]
      generalize a.withAuth g.store env op (pathID r) r = out at heffect ⊢
      obtain ⟨resp, s'⟩ := out
      simp only at heffect ⊢
      cases heffect with
      | quiet _ _ hget => rw [hget, hl]
      | created l' hget hold =>
        rw [hget, Function.update_apply]
        split
        · rename_i he
          rw [hold l (he ▸ hl)]
        · exact hl
      | extended l' d _ hget => rw [hget, Function.update_of_ne hpath.symm, hl]
      | revoked hget => rw [hget, Function.update_of_ne hpath.symm, hl]
    | redirect => exact hl
    | methodNotAllowed => exact hl
    | notFound => exact hl
  | mark i cutoff commits =>
    simp only [step]
    rcases g.store.markExpiredIfBefore_cases i cutoff commits with ⟨w, e, he⟩ | ⟨l', hr, he, hs⟩
    · rw [he]
      exact .inl hl
    · by_cases hi : id = i
      · subst hi
        rw [hr.get] at hl
        cases hl
        exact .inr ⟨cutoff, commits, rfl, he⟩
      · rw [hs]
        exact .inl (by rw [hr.get_store, Function.update_of_ne hi, hl])

theorem run_keeps (hlinked : g.store.Linked) (hl : g.store.get id = some l) (xs : List Arrival)
    (hxs : ∀ r env, Arrival.request r env ∈ xs → pathID r ≠ id) :
    (run a g xs).2.store.get id = some l ∨
      ∃ cutoff commits, Arrival.mark id cutoff commits ∈ xs ∧ l.expiresAt ≤ cutoff := by
  induction xs generalizing g with
  | nil => exact .inl hl
  | cons x xs ih =>
    rcases step_keeps (a := a) hlinked hl x
        (fun r env he => hxs r env (he ▸ List.mem_cons_self)) with h | ⟨cutoff, commits, rfl, hle⟩
    · rcases ih (linked_step hlinked x) h fun r env hr => hxs r env (List.mem_cons_of_mem _ hr)
        with h | ⟨cutoff, commits, hm, hle⟩
      · exact .inl h
      · exact .inr ⟨cutoff, commits, List.mem_cons_of_mem _ hm, hle⟩
    · exact .inr ⟨cutoff, commits, List.mem_cons_self, hle⟩

theorem pathID_ne_slash (r : HTTPRequest Body) : pathID r ≠ lit "/" := by
  have hempty : [] ≠ lit "/" := by decide
  rw [pathID]
  cases hroute : route router r.method r.path with
  | found op values =>
    rcases route_values hroute with ⟨_, id, rfl, _, hslash⟩ | ⟨_, rfl⟩
    · exact hslash
    · exact hempty
  | redirect => exact hempty
  | methodNotAllowed => exact hempty
  | notFound => exact hempty

/-- A lease under the id `/` is out of reach: whatever requests come, with the token or without,
it keeps its token, port, allowlist and expiry until a sweep at or after that expiry. -/
theorem slash_lease_stranded (a : API) (hlinked : g.store.Linked)
    (hl : g.store.get (lit "/") = some l) (xs : List Arrival) :
    (run a g xs).2.store.get (lit "/") = some l ∨
      ∃ cutoff commits, Arrival.mark (lit "/") cutoff commits ∈ xs ∧ l.expiresAt ≤ cutoff :=
  run_keeps hlinked hl xs fun r _ _ => pathID_ne_slash r

theorem slash_lease_stranded_sample : ∃ s l, openStore DB.empty 20000 20001 0 true = some s ∧
    (step sampleAPI ⟨s, []⟩ (sampleCreate "/" sampleHeader)).2.store.get (lit "/") = some l ∧
    ∀ r env, (step sampleAPI (step sampleAPI ⟨s, []⟩ (sampleCreate "/" sampleHeader)).2
      (.request r env)).2.store.get (lit "/") = some l := by
  obtain ⟨s, ho, hop⟩ :=
    openStore_spec Machine.keeps_empty.sound Machine.keeps_empty.db 20000 20001 0
  have hlinked := linked_step (a := sampleAPI) (g := ⟨s, []⟩) hop.inv.linked
    (sampleCreate "/" sampleHeader)
  have hsome : ((openStore DB.empty 20000 20001 0 true).bind fun s =>
      (step sampleAPI ⟨s, []⟩ (sampleCreate "/" sampleHeader)).2.store.get (lit "/")).isSome := by
    decide
  obtain ⟨l, hl⟩ := Option.isSome_iff_exists.1 hsome
  rw [show openStore DB.empty 20000 20001 0 true = some s from ho] at hl
  refine ⟨s, l, ho, hl, ?_⟩
  intro r env
  rcases slash_lease_stranded sampleAPI hlinked hl [.request r env] with h | ⟨_, _, hm, _⟩
  · exact h
  · cases List.mem_singleton.1 hm

end Stranded

end ControlAPI

end HyruleProxy
