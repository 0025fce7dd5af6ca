import HyruleProxy.Store

namespace HyruleProxy
set_option autoImplicit true

/-- What the store is for: the live leases by id. -/
abbrev Ledger := GoString → Option Lease

/-- A lease as `Create` and `Extend` leave it: active, its token and allowlist plain text. -/
structure Lease.Clean (l : Lease) : Prop where
  active : l.status = .active
  token : ValidUTF8 l.token
  allowlist : ∀ c ∈ l.allowlistCIDRs, ValidUTF8 c

/-- Decoding the row of a clean lease gives the lease, with the bytes of its id that are not
UTF-8 replaced. -/
theorem Lease.Clean.unmarshal {l : Lease} (h : l.Clean) :
    l.marshal.unmarshal = some { l with leaseID := toValidUTF8 l.leaseID } := by
  have ha : l.allowlistCIDRs.map toValidUTF8 = l.allowlistCIDRs :=
    (List.map_congr_left h.allowlist).trans (List.map_id _)
  rw [Lease.unmarshal_marshal, h.token, ha]

theorem Lease.Clean.unmarshal_valid {l : Lease} (h : l.Clean) (hid : ValidUTF8 l.leaseID) :
    l.marshal.unmarshal = some l := by
  rw [h.unmarshal, hid]

/-- The allocator marks exactly the ports of the ledger, which are distinct and in range. -/
structure Ledger.Ports (L : Ledger) (a : PortAllocator) : Prop where
  inj : ∀ {id id' : GoString} {l l' : Lease}, L id = some l → L id' = some l' →
    l.allocatedPort = l'.allocatedPort → id = id'
  range : ∀ {id : GoString} {l : Lease}, L id = some l →
    a.min ≤ l.allocatedPort ∧ l.allocatedPort ≤ a.max
  used : ∀ p, p ∈ a.used ↔ ∃ id l, L id = some l ∧ l.allocatedPort = p

/-- The bucket holds one row for each lease of the ledger, under its id. -/
def DB.Holds (db : DB) (L : Ledger) : Prop :=
  ∃ b, db.leases = some b ∧ ∀ id, b[id]? = (L id).map Lease.marshal

section Ledger

variable {L : Ledger} {a : PortAllocator} {db db' : DB} {id : GoString} {l l' : Lease}

theorem Ledger.Ports.cursor (h : L.Ports a) (next : Int) : L.Ports { a with next := next } :=
  ⟨h.inj, h.range, h.used⟩

theorem Ledger.Ports.insert (h : L.Ports a) (hid : L id = none)
    (hr : a.min ≤ l.allocatedPort ∧ l.allocatedPort ≤ a.max) (hu : l.allocatedPort ∉ a.used) :
    Ledger.Ports (Function.update L id (some l))
      { a with used := Insert.insert l.allocatedPort a.used } := by
  have hfree {i : GoString} {l' : Lease} (hi : L i = some l') :
      l'.allocatedPort ≠ l.allocatedPort := by
    intro he
    exact hu ((h.used _).2 ⟨i, l', hi, he⟩)
  constructor
  · intro i j l₁ l₂ h₁ h₂ he
    rw [Function.update_apply] at h₁ h₂
    split at h₁ <;> split at h₂
    · simp_all
    · cases h₁
      exact absurd he.symm (hfree h₂)
    · cases h₂
      exact absurd he (hfree h₁)
    · exact h.inj h₁ h₂ he
  · intro i l₁ h₁
    rw [Function.update_apply] at h₁
    split at h₁
    · cases h₁
      exact hr
    · exact h.range h₁
  · intro p
    rw [Finset.mem_insert, h.used]
    constructor
    · rintro (rfl | ⟨i, l₁, h₁, hp⟩)
      · exact ⟨id, l, Function.update_self .., rfl⟩
      · refine ⟨i, l₁, ?_, hp⟩
        rw [Function.update_of_ne, h₁]
        rintro rfl
        rw [hid] at h₁
        cases h₁
    · rintro ⟨i, l₁, h₁, hp⟩
      rw [Function.update_apply] at h₁
      split at h₁
      · cases h₁
        exact .inl hp.symm
      · exact .inr ⟨i, l₁, h₁, hp⟩

theorem Ledger.Ports.erase (h : L.Ports a) (hid : L id = some l) :
    Ledger.Ports (Function.update L id none) (a.release l.allocatedPort) := by
  have hsub {i : GoString} {l' : Lease} (hi : Function.update L id none i = some l') :
      i ≠ id ∧ L i = some l' := by
    rw [Function.update_apply] at hi
    split at hi
    · cases hi
    · exact ⟨by assumption, hi⟩
  constructor
  · intro i j l₁ l₂ h₁ h₂ he
    exact h.inj (hsub h₁).2 (hsub h₂).2 he
  · intro i l₁ h₁
    exact h.range (hsub h₁).2
  · intro p
    rw [PortAllocator.release, Finset.mem_erase, h.used]
    constructor
    · rintro ⟨hp, i, l₁, h₁, rfl⟩
      refine ⟨i, l₁, ?_, rfl⟩
      rw [Function.update_of_ne, h₁]
      rintro rfl
      rw [hid] at h₁
      cases h₁
      exact hp rfl
    · rintro ⟨i, l₁, h₁, rfl⟩
      obtain ⟨hi, h₁⟩ := hsub h₁
      exact ⟨fun he => hi (h.inj h₁ hid he), i, l₁, h₁, rfl⟩

theorem Ledger.Ports.replace (h : L.Ports a) (hid : L id = some l)
    (hp : l'.allocatedPort = l.allocatedPort) :
    Ledger.Ports (Function.update L id (some l')) a := by
  have hold {i : GoString} {l₁ : Lease} (hi : Function.update L id (some l') i = some l₁) :
      ∃ l₂, L i = some l₂ ∧ l₁.allocatedPort = l₂.allocatedPort := by
    rw [Function.update_apply] at hi
    split at hi
    · subst i
      cases hi
      exact ⟨l, hid, hp⟩
    · exact ⟨l₁, hi, rfl⟩
  constructor
  · intro i j l₁ l₂ h₁ h₂ he
    obtain ⟨m₁, hm₁, he₁⟩ := hold h₁
    obtain ⟨m₂, hm₂, he₂⟩ := hold h₂
    exact h.inj hm₁ hm₂ (he₁.symm.trans (he.trans he₂))
  · intro i l₁ h₁
    obtain ⟨m₁, hm₁, he₁⟩ := hold h₁
    rw [he₁]
    exact h.range hm₁
  · intro p
    rw [h.used]
    constructor
    · rintro ⟨i, l₁, h₁, rfl⟩
      by_cases hi : i = id
      · subst hi
        rw [hid] at h₁
        cases h₁
        exact ⟨i, l', Function.update_self .., hp⟩
      · exact ⟨i, l₁, by rw [Function.update_of_ne hi, h₁], rfl⟩
    · rintro ⟨i, l₁, h₁, rfl⟩
      obtain ⟨m₁, hm₁, he₁⟩ := hold h₁
      exact ⟨i, m₁, hm₁, he₁.symm⟩

theorem DB.Holds.put (h : db.Holds L) (hp : db.put id l.marshal = some db') :
    db'.Holds (Function.update L id (some l)) := by
  obtain ⟨b, hb, hrow⟩ := h
  simp only [DB.put, hb, Option.map_some, Option.some.injEq] at hp
  subst hp
  refine ⟨_, rfl, fun i => ?_⟩
  rw [GoMap.get_insert, Function.update_apply, hrow]
  by_cases hi : id = i
  · simp [hi]
  · simp [hi, Ne.symm hi]

theorem DB.Holds.delete (h : db.Holds L) (id : GoString) :
    (db.delete id).Holds (Function.update L id none) := by
  obtain ⟨b, hb, hrow⟩ := h
  refine ⟨b.erase id, by rw [DB.delete, hb]; rfl, fun i => ?_⟩
  rw [GoMap.get_erase, Function.update_apply, hrow]
  by_cases hi : id = i
  · simp [hi]
  · simp [hi, Ne.symm hi]

end Ledger

end HyruleProxy
