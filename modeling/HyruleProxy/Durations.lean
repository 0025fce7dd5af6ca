import HyruleProxy.Coordinator
import HyruleProxy.StoreInvariant

namespace HyruleProxy
set_option autoImplicit true

/-- The `int64` product `time.Duration(seconds) * time.Second`. -/
def secondsDuration (seconds : Int) : Duration := (seconds * 10 ^ 9).bmod (2 ^ 64)

theorem secondsDuration_lt (seconds : Int) : secondsDuration seconds < (2 ^ 63 : Int) :=
  Int.bmod_lt (by decide)

theorem secondsDuration_eq (seconds : Int) : secondsDuration seconds =
    if seconds * 10 ^ 9 % 2 ^ 64 < 2 ^ 63 then seconds * 10 ^ 9 % 2 ^ 64
    else seconds * 10 ^ 9 % 2 ^ 64 - 2 ^ 64 := by
  rw [secondsDuration, Int.bmod_def]
  rfl

theorem secondsDuration_exact_iff (h : 0 ≤ seconds) :
    secondsDuration seconds = seconds * 10 ^ 9 ↔ seconds * 10 ^ 9 < 2 ^ 63 := by
  constructor
  · intro he
    rw [← he]
    exact secondsDuration_lt seconds
  · intro hlt
    have hpos : 0 ≤ seconds * 10 ^ 9 := by positivity
    have hmod : seconds * 10 ^ 9 % 2 ^ 64 = seconds * 10 ^ 9 :=
      Int.emod_eq_of_lt hpos (hlt.trans (by decide))
    rw [secondsDuration_eq, hmod, if_pos hlt]

/-- The timeouts that pass the check of `config.Load`. -/
structure Timeouts where
  defaultTimeout : Duration
  maxTimeout : Duration
  default_pos : (0 : Int) < defaultTimeout
  default_le : defaultTimeout ≤ maxTimeout
  max_lt : maxTimeout < (2 ^ 63 : Int)

/-- `config.Load` on the values of the two variables. -/
def loadTimeouts (defaultSeconds maxSeconds : Int) : Option Timeouts :=
  let defaultTimeout := secondsDuration defaultSeconds
  let maxTimeout := secondsDuration maxSeconds
  if h : maxTimeout ≤ (0 : Int) ∨ defaultTimeout ≤ (0 : Int) ∨ defaultTimeout > maxTimeout then none
  else
    have h := not_or.1 h
    have h' := not_or.1 h.2
    some ⟨defaultTimeout, maxTimeout, not_le.1 h'.1, not_lt.1 h'.2, secondsDuration_lt maxSeconds⟩

/-- The timeout that `Client.Do` puts on the context. -/
def requestTimeout (t : Timeouts) (timeoutSeconds : Int) : Duration :=
  let timeout := if timeoutSeconds > 0 then secondsDuration timeoutSeconds else t.defaultTimeout
  if timeout > t.maxTimeout then t.maxTimeout else timeout

/-- The timeout a caller asks for, cut at the maximum. -/
def exactTimeout (t : Timeouts) (timeoutSeconds : Int) : Duration :=
  if 0 < timeoutSeconds then min t.maxTimeout (timeoutSeconds * 10 ^ 9 : Int) else t.defaultTimeout

/-- A count of seconds that the clamp handles: it is not positive, or its nanoseconds stay below
the maximum, or they reach the maximum also after the product has wrapped around. -/
def FitsTimeout (t : Timeouts) (timeoutSeconds : Int) : Prop :=
  timeoutSeconds ≤ 0 ∨ timeoutSeconds * 10 ^ 9 ≤ t.maxTimeout ∨
    (t.maxTimeout ≤ timeoutSeconds * 10 ^ 9 % 2 ^ 64 ∧ timeoutSeconds * 10 ^ 9 % 2 ^ 64 < 2 ^ 63)

instance (t : Timeouts) (n : Int) : Decidable (FitsTimeout t n) :=
  inferInstanceAs (Decidable (_ ∨ _ ∨ (_ ∧ _)))

namespace Timeouts

variable {t : Timeouts} {n n' : Int}

theorem requestTimeout_nonpos (t : Timeouts) (h : n ≤ 0) :
    requestTimeout t n = t.defaultTimeout := by
  rw [requestTimeout, if_neg (not_lt.2 h), if_neg (not_lt.2 t.default_le)]

theorem requestTimeout_pos (t : Timeouts) (h : 0 < n) :
    requestTimeout t n = min t.maxTimeout (secondsDuration n) := by
  rw [requestTimeout, if_pos h, min_def]
  split
  · rename_i hlt
    rw [if_pos (le_of_lt hlt)]
  · rename_i hle
    split
    · rename_i hge
      exact le_antisymm (not_lt.1 hle) hge
    · rfl

theorem exactTimeout_bounds (t : Timeouts) (n : Int) :
    (0 : Int) < exactTimeout t n ∧ exactTimeout t n ≤ t.maxTimeout := by
  have hmax : (0 : Int) < t.maxTimeout := lt_of_lt_of_le t.default_pos t.default_le
  rw [exactTimeout]
  split
  · rename_i h
    exact ⟨lt_min hmax (by positivity), min_le_left _ _⟩
  · exact ⟨t.default_pos, t.default_le⟩

theorem exactTimeout_mono (t : Timeouts) (hn : 0 < n) (h : n ≤ n') :
    exactTimeout t n ≤ exactTimeout t n' := by
  rw [exactTimeout, exactTimeout, if_pos hn, if_pos (lt_of_lt_of_le hn h)]
  exact min_le_min_left _ (mul_le_mul_of_nonneg_right h (by decide))

theorem min_wrapped_iff {M x : Int} (hM : 0 < M) (hlt : M < 2 ^ 63) (hx : 0 < x) :
    min M (if x % 2 ^ 64 < 2 ^ 63 then x % 2 ^ 64 else x % 2 ^ 64 - 2 ^ 64) = min M x ↔
      x ≤ M ∨ (M ≤ x % 2 ^ 64 ∧ x % 2 ^ 64 < 2 ^ 63) := by
  omega

theorem requestTimeout_exact_iff (t : Timeouts) (n : Int) :
    requestTimeout t n = exactTimeout t n ↔ FitsTimeout t n := by
  rcases le_or_gt n 0 with h | h
  · rw [requestTimeout_nonpos t h, exactTimeout, if_neg (not_lt.2 h)]
    exact iff_of_true rfl (.inl h)
  · rw [requestTimeout_pos t h, exactTimeout, if_pos h]
    have hmax : (0 : Int) < t.maxTimeout := lt_of_lt_of_le t.default_pos t.default_le
    rw [secondsDuration_eq, FitsTimeout, or_iff_right (not_le.2 h)]
    exact min_wrapped_iff hmax t.max_lt (by positivity)

/-- Over any set of requested counts the clamp is exact, in range and monotone on the positive
counts, exactly when every count of the set fits. -/
theorem requestTimeout_clamps_iff (t : Timeouts) (S : Set Int) :
    (∀ n ∈ S, requestTimeout t n = exactTimeout t n ∧ (0 : Int) < requestTimeout t n ∧
      requestTimeout t n ≤ t.maxTimeout) ∧ MonotoneOn (requestTimeout t) (S ∩ Set.Ioi 0) ↔
    ∀ n ∈ S, FitsTimeout t n := by
  constructor
  · intro h n hn
    exact (requestTimeout_exact_iff t n).1 (h.1 n hn).1
  · intro h
    have hex : ∀ n ∈ S, requestTimeout t n = exactTimeout t n :=
      fun n hn => (requestTimeout_exact_iff t n).2 (h n hn)
    constructor
    · intro n hn
      rw [hex n hn]
      exact ⟨rfl, exactTimeout_bounds t n⟩
    · intro n hn n' hn' hle
      rw [hex n hn.1, hex n' hn'.1]
      exact exactTimeout_mono t hn.2 hle

/-- With the default settings a request for 9223372037 seconds gets a deadline in the past. -/
theorem requestTimeout_wraps :
    (loadTimeouts 15 60).map (fun t => (requestTimeout t 9223372037, exactTimeout t 9223372037)) =
      some (-9223372036709551616, 60 * 10 ^ 9) := by
  decide

end Timeouts

/-- The lease bounds that pass the check of the tunnel's `config.Load`. -/
structure LoadedConfig extends TunnelConfig where
  min_pos : 0 < minLeaseSeconds
  min_le_max : minLeaseSeconds ≤ maxLeaseSeconds
  max_lt : maxLeaseSeconds < 2 ^ 63

/-- The seconds of a lease before they are turned into nanoseconds. -/
def clampSeconds (cfg : TunnelConfig) (seconds : Int) : Int :=
  min cfg.maxLeaseSeconds (max cfg.minLeaseSeconds seconds)

theorem clampDuration_eq (cfg : TunnelConfig) (seconds : Int) :
    clampDuration cfg seconds = secondsDuration (clampSeconds cfg seconds) := by
  have hcut : (if (if seconds < cfg.minLeaseSeconds then cfg.minLeaseSeconds else seconds) >
        cfg.maxLeaseSeconds then cfg.maxLeaseSeconds
      else if seconds < cfg.minLeaseSeconds then cfg.minLeaseSeconds else seconds) =
      clampSeconds cfg seconds := by
    rw [clampSeconds]
    omega
  rw [clampDuration, secondsDuration, hcut]

/-- What a lease duration of `seconds` must give: the clamp is exact, an extension moves the
expiry forward by the minimum at least, and a new lease lasts for the minimum at least. -/
structure ClampsLeases (cfg : TunnelConfig) (seconds : Int) : Prop where
  exact : clampDuration cfg seconds = clampSeconds cfg seconds * 10 ^ 9
  extended : ∀ (s s' : Store) (env : ControlEnv) (id : GoString) (resp : LeaseResponse),
    control cfg s env (.extendLease id seconds) = (.extended (.ok resp), s') →
    ∃ l l', s.get id = some l ∧ s'.get id = some l' ∧ resp.expiresAt = l'.expiresAt ∧
      l.expiresAt < l'.expiresAt ∧ l.expiresAt + cfg.minLeaseSeconds * 10 ^ 9 ≤ l'.expiresAt
  created : ∀ (s s' : Store) (env : ControlEnv) (id : GoString) (cidrs : List GoString)
    (resp : LeaseResponse), s.get id = none →
    control cfg s env (.createLease id seconds cidrs) = (.created (.ok resp), s') →
    ∃ l', s'.get id = some l' ∧ resp.expiresAt = l'.expiresAt ∧ l'.createdAt = env.now ∧
      l'.createdAt + cfg.minLeaseSeconds * 10 ^ 9 ≤ l'.expiresAt

namespace Store

variable {s s' : Store} {id : GoString} {l l' : Lease} {p : CreateParams} {env : CreateEnv}

theorem get_extend (h : (s.extend id d o).result = .ok l') :
    ∃ l, s.get id = some l ∧ (s.extend id d o).store.get id = some l' ∧
      l' = { l with expiresAt := l.expiresAt + d } := by
  rcases s.extend_cases id d o with ⟨e, he⟩ | ⟨l, r, db, hr⟩
  · rw [he] at h
    cases h
  · rw [hr.outcome] at h ⊢
    cases h
    refine ⟨l, hr.get, get_eq_some.2 ⟨r, hr.ref, ?_⟩, rfl⟩
    exact List.getElem?_set_self (heap_lt hr.cell)

theorem get_install_self (s : Store) (l : Lease) : (s.install l).get l.leaseID = some l := by
  apply get_eq_some.2
  refine ⟨s.heap.length, ?_, heap_install_self l⟩
  rw [byID_install, if_pos rfl]

theorem create_new (hg : s.get p.leaseID = none) (h : (s.create p env).result = .ok l) :
    ∃ (token : GoString) (port : Int) (s₁ : Store), l = newLease p token port env.now ∧
      (s.create p env).store = s₁.install l := by
  cases hf : p.allowlistCIDRs.find? fun c => (parseCIDR c).isNone with
  | some c => simp only [create, hg, hf, reduceCtorEq] at h
  | none =>
    rcases ha : s.alloc.allocate env.portInUse with ⟨_ | port, a⟩
    · simp only [create, hg, hf, ha, reduceCtorEq] at h
    · cases hm : mintToken env.rand with
      | none => simp only [create, hg, hf, ha, hm, reduceCtorEq] at h
      | some token =>
        cases hp : ({ s with alloc := a } : Store).persist (newLease p token port env.now)
            env.persist with
        | error e => simp only [create, hg, hf, ha, hm, hp, reduceCtorEq] at h
        | ok db =>
          simp only [create, hg, hf, ha, hm, hp, Except.ok.injEq] at h ⊢
          exact ⟨token, port, { s with alloc := a, db := db }, h.symm, by rw [h]⟩

end Store

theorem LoadedConfig.clampSeconds_ge (cfg : LoadedConfig) (seconds : Int) :
    cfg.minLeaseSeconds ≤ clampSeconds cfg.toTunnelConfig seconds :=
  le_min cfg.min_le_max (le_max_left _ _)

/-- The clamp is exact for the seconds whose clamped nanoseconds fit into an `int64`, and only
for these; extensions and new leases then keep the minimum. -/
theorem clampsLeases_iff (cfg : LoadedConfig) (seconds : Int) :
    ClampsLeases cfg.toTunnelConfig seconds ↔
      clampSeconds cfg.toTunnelConfig seconds * 10 ^ 9 < 2 ^ 63 := by
  have hge := cfg.clampSeconds_ge seconds
  have hmin := cfg.min_pos
  have hiff := secondsDuration_exact_iff (hmin.le.trans hge)
  constructor
  · intro h
    exact hiff.1 ((clampDuration_eq _ _).symm.trans h.exact)
  · intro hlt
    have hex := (clampDuration_eq cfg.toTunnelConfig seconds).trans (hiff.2 hlt)
    have hd : cfg.minLeaseSeconds * 10 ^ 9 ≤ clampDuration cfg.toTunnelConfig seconds := by
      rw [hex]
      exact mul_le_mul_of_nonneg_right hge (by decide)
    have hpos : (0 : Int) < cfg.minLeaseSeconds * 10 ^ 9 := by positivity
    refine ⟨hex, ?_, ?_⟩
    · intro s s' env id resp h
      obtain ⟨hans, rfl⟩ := Prod.mk.inj h
      obtain ⟨l', hl', rfl⟩ := map_eq_ok (Answer.extended.inj hans)
      obtain ⟨l, hl, hget, rfl⟩ := Store.get_extend hl'
      exact ⟨l, _, hl, hget, rfl, lt_add_of_pos_right _ (lt_of_lt_of_le hpos hd),
        Int.add_le_add_left hd _⟩
    · intro s s' env id cidrs resp hg h
      obtain ⟨hans, rfl⟩ := Prod.mk.inj h
      obtain ⟨l', hl', rfl⟩ := map_eq_ok (Answer.created.inj hans)
      obtain ⟨token, port, s₁, rfl, hst⟩ := Store.create_new hg hl'
      refine ⟨_, ?_, rfl, rfl, Int.add_le_add_left hd _⟩
      rw [hst]
      exact Store.get_install_self s₁ _

/-- Bounds without an upper limit that `config.Load` accepts. -/
def longLeases : LoadedConfig where
  endpointHost := lit "tunnel.example"
  sshPort := 22
  minLeaseSeconds := 60
  maxLeaseSeconds := 10 ^ 10
  min_pos := by decide
  min_le_max := by decide
  max_lt := by decide

theorem clampDuration_wraps : ¬ ClampsLeases longLeases.toTunnelConfig 9223372037 ∧
    clampDuration longLeases.toTunnelConfig 9223372037 = -9223372036709551616 := by
  have hval : clampDuration longLeases.toTunnelConfig 9223372037 = -9223372036709551616 := by
    decide
  refine ⟨?_, hval⟩
  intro h
  have hex := hval.symm.trans h.exact
  exact absurd hex (by decide)

end HyruleProxy
