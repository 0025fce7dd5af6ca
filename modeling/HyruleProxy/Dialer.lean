import HyruleProxy.HostPort
import HyruleProxy.IPPolicy

namespace HyruleProxy
set_option autoImplicit true

/-- A `guardedDialer` or a `guardedSOCKSDialer` with its mode. -/
inductive Dialer where
  | guarded (mode : GoString)
  | socks (mode : GoString)
  deriving DecidableEq

def Dialer.mode : Dialer → GoString
  | guarded mode => mode
  | socks mode => mode

/-- The loop of `resolveDialAddress` over the resolver's answers. -/
def selectAddr (mode : GoString) : List Addr → Addr → Except GoError Addr
  | [], selected => .ok selected
  | addr :: addrs, selected =>
    if ipAllowedForMode addr.unmap mode then
      selectAddr mode addrs (if selected.isValid then selected else addr.unmap)
    else .error (errPolicyDenied (lit "host resolves to disallowed IP " ++ addr.unmap.string))

section
variable (U : Unicode) (lookup : Resolver)

def resolveDialAddressQ (host port mode : GoString) : Lookups (Except GoError GoString) :=
  let host := trim host (lit "[]")
  match parseAddr host with
  | some ip =>
    if ipAllowedForMode ip mode then .done (.ok (joinHostPort ip.string port))
    else .done (.error (errPolicyDenied (lit "destination IP " ++ ip.string ++
      lit " is disallowed for " ++ mode)))
  | none =>
    if isLocalhost U host then .done (.error (errPolicyDenied (lit "localhost is disallowed")))
    else
      .ask host fun answer =>
        match answer with
        | .error e => .done (.error (.plain e))
        | .ok addrs =>
          if addrs = [] then .done (.error (.plain (lit "host resolved to no addresses")))
          else
            match selectAddr mode addrs .zero with
            | .error e => .done (.error e)
            | .ok selected =>
              if selected.isValid then .done (.ok (joinHostPort selected.string port))
              else .done (.error (.plain (lit "host resolved to no usable addresses")))

def resolveDialAddress (host port mode : GoString) : Except GoError GoString :=
  (resolveDialAddressQ U host port mode).run lookup

/-- The short cut of `guardedSOCKSDialer` for onion names. -/
def Dialer.passesOn (d : Dialer) (host : GoString) : Bool :=
  match d with
  | guarded _ => false
  | socks mode => mode = proxyModeTor ∧
      hasSuffix (toLower U (trimSuffix host (lit "."))) (lit ".onion") = true

/-- The address that `DialContext` hands to the dialer below it. -/
def Dialer.dialContextQ (d : Dialer) (address : GoString) : Lookups (Except GoError GoString) :=
  match splitHostPort address with
  | .error e => .done (.error (.plain e))
  | .ok (host, port) =>
    if d.passesOn U host then .done (.ok address) else resolveDialAddressQ U host port d.mode

def Dialer.dialContext (d : Dialer) (address : GoString) : Except GoError GoString :=
  (d.dialContextQ U address).run lookup

end

/-- A name under `.onion`, in ASCII letters of either case and with or without the root dot. -/
def onionName (host : GoString) : Bool :=
  hasSuffix ((trimSuffix host (lit ".")).map asciiLower) (lit ".onion")

/-- The destinations of a mode: an address with allowed bits, or an onion name over Tor. -/
def permittedHost (mode host : GoString) : Bool :=
  match parseAddr host with
  | some a => bitsAllowed mode a
  | none => mode = proxyModeTor ∧ onionName host = true

def permitted (mode dest : GoString) : Bool :=
  match splitHostPort dest with
  | .ok (host, _) => permittedHost mode host
  | .error _ => false

/-- The dials that get past the guard: a literal or an answer whose zone masks its bits, an
answer whose zone cannot stand between brackets, a literal whose zone ends like an onion name, or a
name that ends so only under Unicode case mapping. -/
inductive Dialer.Leaks (U : Unicode) (lookup : Resolver) (d : Dialer) (address : GoString) :
    Prop where
  | literal (hs : splitHostPort address = .ok (host, port)) (hp : d.passesOn U host = false)
      (ha : parseAddr host = some a) (hm : masked d.mode a = true) : Leaks U lookup d address
  | answer (hs : splitHostPort address = .ok (host, port)) (hp : d.passesOn U host = false)
      (ha : parseAddr host = none) (hl : isLocalhost U host = false)
      (hr : lookup host = .ok (a :: addrs))
      (hall : ∀ b ∈ a :: addrs, ipAllowedForMode b.unmap d.mode = true)
      (hm : masked d.mode a.unmap = true ∨ ¬NoBrackets a.unmap.zone) : Leaks U lookup d address
  | onionZone (hs : splitHostPort address = .ok (host, port)) (hp : d.passesOn U host = true)
      (ha : parseAddr host = some a) (hm : bitsAllowed d.mode a = false) : Leaks U lookup d address
  | onionFold (hs : splitHostPort address = .ok (host, port)) (hp : d.passesOn U host = true)
      (ha : parseAddr host = none) (hm : onionName host = false) : Leaks U lookup d address

theorem zone_subset_of_parseAddr (h : parseAddr s = some a) : a.zone ⊆ s := by
  rw [parseAddr] at h
  split at h
  · cases h
  · split at h
    · obtain ⟨o, _, ho⟩ := Option.bind_eq_some_iff.1 h
      rw [mkIP4] at ho
      split at ho
      · cases ho
        exact List.nil_subset s
      · cases ho
    · split at h
      · rw [parseIPv6] at h
        split at h
        · simp only at h
          split at h
          · cases h
          · obtain ⟨g, rfl⟩ := parseIPv6Body_zone h
            intro b hb
            exact (List.dropWhile_sublist _).subset (List.mem_of_mem_tail hb)
        · obtain ⟨g, rfl⟩ := parseIPv6Body_zone h
          exact List.nil_subset s
      · cases h

theorem noBrackets_string (h : a ≠ Addr.zero) : NoBrackets a.string ↔ NoBrackets a.zone := by
  have hb : NoBrackets a.body := by
    constructor
    · intro hm
      exact (a.isAddrByte_body hm).ne.2.1 rfl
    · intro hm
      exact (a.isAddrByte_body hm).ne.2.2 rfl
  rw [Addr.string_eq h]
  constructor
  · intro hs
    apply hs.of_subset
    intro b hm
    rw [zoneText, if_neg (List.ne_nil_of_mem hm)]
    exact List.mem_append_right _ (List.mem_cons_of_mem _ hm)
  · intro hz
    have hzt : NoBrackets (zoneText a.zone) := by
      rw [zoneText]
      split
      · exact ⟨List.not_mem_nil, List.not_mem_nil⟩
      · simp only [NoBrackets, List.mem_cons, not_or]
        exact ⟨⟨by decide, hz.1⟩, by decide, hz.2⟩
    simp only [NoBrackets, List.mem_append, not_or]
    exact ⟨⟨hb.1, hzt.1⟩, hb.2, hzt.2⟩

theorem colon_mem_string (a : Addr) (h : a.zone ≠ []) : ch ':' ∈ a.string := by
  cases a with
  | zero => exact absurd rfl h
  | ip4 o => exact absurd rfl h
  | ip6 g zone =>
    obtain ⟨pre, post, hb, _⟩ := Addr.body_colon g zone
    have hne : Addr.ip6 g zone ≠ .zero := nofun
    rw [Addr.string_eq hne, hb]
    simp

theorem permitted_join (ha : a ≠ Addr.zero) (hp : NoBrackets port) (hc : ch ':' ∉ port)
    (hz : NoBrackets a.zone) :
    permitted mode (joinHostPort a.string port) = bitsAllowed mode a := by
  have hs : Splits a.string port := ⟨(noBrackets_string ha).2 hz, hp, hc⟩
  rw [permitted, splitHostPort_joinHostPort hs]
  simp only [permittedHost, parseAddr_string ha]

theorem permitted_join_bracket (ha : a ≠ Addr.zero) (hc : ch ':' ∉ port)
    (hz : ¬NoBrackets a.zone) : permitted mode (joinHostPort a.string port) = false := by
  have hne : a.zone ≠ [] := by
    intro he
    apply hz
    rw [he]
    exact ⟨List.not_mem_nil, List.not_mem_nil⟩
  obtain ⟨e, he⟩ := splitHostPort_bracket (colon_mem_string a hne) hc
    (fun hb => hz ((noBrackets_string ha).1 hb))
  rw [permitted, he]

theorem ne_zero_of_allowed (h : ipAllowedForMode a mode = true) : a ≠ .zero := by
  rintro rfl
  rw [ipAllowedForMode] at h
  split at h
  · cases h
  · split at h
    · cases h
    · cases h

theorem selectAddr_eq_ok (hs : selected.isValid = true) :
    selectAddr mode addrs selected = .ok a ↔
      (∀ b ∈ addrs, ipAllowedForMode b.unmap mode = true) ∧ a = selected := by
  induction addrs with
  | nil =>
    rw [selectAddr, Except.ok.injEq]
    exact ⟨fun h => ⟨List.forall_mem_nil _, h.symm⟩, fun h => h.2.symm⟩
  | cons b addrs ih =>
    rw [selectAddr, List.forall_mem_cons]
    split
    · rename_i hb
      rw [ih]
      exact ⟨fun h => ⟨⟨hb, h.1⟩, h.2⟩, fun h => ⟨h.1.2, h.2⟩⟩
    · rename_i hb
      exact ⟨nofun, fun h => absurd h.1.1 hb⟩

theorem selectAddr_cons_eq_ok :
    selectAddr mode (b :: addrs) .zero = .ok a ↔
      (∀ c ∈ b :: addrs, ipAllowedForMode c.unmap mode = true) ∧ a = b.unmap := by
  rw [selectAddr, List.forall_mem_cons]
  split
  · rename_i hb
    have hv : b.unmap.isValid = true := decide_eq_true (ne_zero_of_allowed hb)
    rw [if_neg (by decide), selectAddr_eq_ok hv]
    exact ⟨fun h => ⟨⟨hb, h.1⟩, h.2⟩, fun h => ⟨h.1.2, h.2⟩⟩
  · rename_i hb
    exact ⟨nofun, fun h => absurd h.1.1 hb⟩

/-- The addresses that stand behind a host: the literal itself, or the first of the answers when
the guard allows them all. -/
inductive Resolves (U : Unicode) (lookup : Resolver) (mode host : GoString) : Addr → Prop where
  | literal (ha : parseAddr host = some a) (hi : ipAllowedForMode a mode = true) :
      Resolves U lookup mode host a
  | answer (ha : parseAddr host = none) (hl : isLocalhost U host = false)
      (hr : lookup host = .ok (a :: addrs))
      (hall : ∀ b ∈ a :: addrs, ipAllowedForMode b.unmap mode = true) :
      Resolves U lookup mode host a.unmap

theorem Resolves.allowed (h : Resolves U lookup mode host a) : ipAllowedForMode a mode = true := by
  cases h with
  | literal ha hi => exact hi
  | answer ha hl hr hall => exact hall _ List.mem_cons_self

theorem resolveDialAddress_eq_ok (hh : NoBrackets host) :
    resolveDialAddress U lookup host port mode = .ok dest ↔
      ∃ a, Resolves U lookup mode host a ∧ dest = joinHostPort a.string port := by
  rw [resolveDialAddress, resolveDialAddressQ, hh.trim_eq]
  constructor
  · intro h
    split at h
    · rename_i ip ha
      split at h
      · rename_i hi
        cases h
        exact ⟨ip, .literal ha hi, rfl⟩
      · cases h
    · rename_i ha
      split at h
      · cases h
      · rename_i hl
        simp only [Asking.run_ask] at h
        split at h
        · cases h
        · rename_i addrs hr
          split at h
          · cases h
          · rename_i hne
            obtain ⟨b, addrs, rfl⟩ := List.exists_cons_of_ne_nil hne
            split at h
            · cases h
            · rename_i selected hsel
              obtain ⟨hall, rfl⟩ := selectAddr_cons_eq_ok.1 hsel
              split at h
              · cases h
                exact ⟨_, .answer ha (Bool.eq_false_iff.2 hl) hr hall, rfl⟩
              · cases h
  · rintro ⟨a, hres, rfl⟩
    have hv : a.isValid = true := decide_eq_true (ne_zero_of_allowed hres.allowed)
    cases hres with
    | literal ha hi =>
      simp only [ha]
      rw [if_pos hi, Asking.run_done]
    | answer ha hl hr hall =>
      simp only [ha]
      rw [if_neg (by rw [hl]; decide), Asking.run_ask, hr]
      simp only
      rw [if_neg (List.cons_ne_nil _ _), selectAddr_cons_eq_ok.2 ⟨hall, rfl⟩]
      simp only
      rw [if_pos hv, Asking.run_done]

theorem Dialer.passesOn_mode {d : Dialer} (h : d.passesOn U host = true) :
    d.mode = proxyModeTor := by
  cases d with
  | guarded mode => cases h
  | socks mode => exact (of_decide_eq_true h).1

theorem Dialer.leaks_of_not_permitted (d : Dialer) (h : d.dialContext U lookup address = .ok dest)
    (hp : permitted d.mode dest = false) : d.Leaks U lookup address := by
  rw [Dialer.dialContext, Dialer.dialContextQ] at h
  split at h
  · cases h
  · rename_i host port hs
    obtain ⟨hh, hport, hc⟩ := splits_of_splitHostPort hs
    split at h
    · rename_i hpass
      cases h
      rw [permitted, hs] at hp
      simp only [permittedHost] at hp
      split at hp
      · rename_i a ha
        exact .onionZone hs hpass ha hp
      · rename_i ha
        rw [passesOn_mode hpass] at hp
        exact .onionFold hs hpass ha (by simpa using hp)
    · rename_i hpass
      have hpass := Bool.eq_false_iff.2 hpass
      obtain ⟨a, hres, rfl⟩ := (resolveDialAddress_eq_ok hh).1 h
      have hi := hres.allowed
      have ha0 := ne_zero_of_allowed hi
      cases hres with
      | literal ha _ =>
        have hz : NoBrackets a.zone := hh.of_subset (zone_subset_of_parseAddr ha)
        rw [permitted_join ha0 hport hc hz, bitsAllowed_of_allowed hi, Bool.not_eq_false'] at hp
        exact .literal hs hpass ha hp
      | @answer b addrs ha hl hr hall =>
        apply Leaks.answer hs hpass ha hl hr hall
        by_cases hz : NoBrackets b.unmap.zone
        · rw [permitted_join ha0 hport hc hz, bitsAllowed_of_allowed hi, Bool.not_eq_false'] at hp
          exact .inl hp
        · exact .inr hz

theorem Dialer.Leaks.handed_over {d : Dialer} (h : d.Leaks U lookup address) :
    ∃ dest, d.dialContext U lookup address = .ok dest ∧ permitted d.mode dest = false := by
  rw [Dialer.dialContext, Dialer.dialContextQ]
  cases h with
  | @literal host port a hs hp ha hm =>
    obtain ⟨hh, hport, hc⟩ := splits_of_splitHostPort hs
    have hi := allowed_of_masked hm
    have hz : NoBrackets a.zone := hh.of_subset (zone_subset_of_parseAddr ha)
    rw [hs]
    simp only
    rw [if_neg (by rw [hp]; decide)]
    refine ⟨_, (resolveDialAddress_eq_ok hh).2 ⟨a, .literal ha hi, rfl⟩, ?_⟩
    rw [permitted_join (ne_zero_of_allowed hi) hport hc hz, bitsAllowed_of_allowed hi, hm]
    rfl
  | @answer host port a addrs hs hp ha hl hr hall hm =>
    obtain ⟨hh, hport, hc⟩ := splits_of_splitHostPort hs
    have hi := hall _ List.mem_cons_self
    have ha0 := ne_zero_of_allowed hi
    rw [hs]
    simp only
    rw [if_neg (by rw [hp]; decide)]
    refine ⟨_, (resolveDialAddress_eq_ok hh).2 ⟨_, .answer ha hl hr hall, rfl⟩, ?_⟩
    by_cases hz : NoBrackets a.unmap.zone
    · rw [permitted_join ha0 hport hc hz, bitsAllowed_of_allowed hi]
      cases hm with
      | inl hm =>
        rw [hm]
        rfl
      | inr hm => exact absurd hz hm
    · exact permitted_join_bracket ha0 hc hz
  | onionZone hs hp ha hm =>
    rw [hs]
    simp only
    rw [if_pos hp]
    refine ⟨address, rfl, ?_⟩
    rw [permitted, hs]
    simp only [permittedHost, ha, hm]
  | onionFold hs hp ha hm =>
    rw [hs]
    simp only
    rw [if_pos hp]
    refine ⟨address, rfl, ?_⟩
    rw [permitted, hs]
    simp [permittedHost, ha, hm]

/-- A dialer hands over permitted destinations only, exactly when no zone masks the address it
dials and no host passes for an onion name without being one. -/
theorem Dialer.permitted_iff_not_leaks (U : Unicode) (lookup : Resolver) (d : Dialer)
    (address : GoString) :
    (∀ dest, d.dialContext U lookup address = .ok dest → permitted d.mode dest = true) ↔
      ¬d.Leaks U lookup address := by
  constructor
  · intro h hl
    obtain ⟨dest, hd, hp⟩ := hl.handed_over
    rw [h dest hd] at hp
    cases hp
  · intro hl dest hd
    cases hp : permitted d.mode dest with
    | true => rfl
    | false => exact absurd (d.leaks_of_not_permitted hd hp) hl

/-- A zone carries an address of `200::/7` past the guard of the direct mode. -/
theorem dial_masked_yggdrasil :
    ∃ dest, (Dialer.guarded proxyModeDirect).dialContext asciiTables
        (fun _ => .error (lit "no such host")) (lit "[200::1%eth0]:80") = .ok dest ∧
      dest = lit "[200::1%eth0]:80" ∧ permitted proxyModeDirect dest = false :=
  ⟨lit "[200::1%eth0]:80", by decide, rfl, by decide⟩

end HyruleProxy
