import Mathlib

namespace HyruleProxy
set_option autoImplicit true

/-- A Go map, compared by its lookups; `toList` lists the entries in key order. -/
abbrev GoMap (K V : Type) [Ord K] := Std.ExtTreeMap K V compare

namespace GoMap

variable [Ord K] [Std.TransOrd K]

@[simp] theorem get_empty (k : K) : (∅ : GoMap K V)[k]? = none :=
  Std.ExtTreeMap.getElem?_empty

theorem nodup_toList (m : GoMap K V) : m.toList.Nodup := by
  have h := m.nodup_keys
  rw [← Std.ExtTreeMap.map_fst_toList_eq_keys] at h
  exact h.of_map _

variable [Std.LawfulEqOrd K]

theorem mem_toList {m : GoMap K V} {k : K} {v : V} : (k, v) ∈ m.toList ↔ m[k]? = some v :=
  Std.ExtTreeMap.mem_toList_iff_getElem?_eq_some

theorem mem_keys_iff {m : GoMap K V} {k : K} : k ∈ m.keys ↔ ∃ v, m[k]? = some v := by
  rw [Std.ExtTreeMap.mem_keys, Std.ExtTreeMap.mem_iff_isSome_getElem?, Option.isSome_iff_exists]

variable [DecidableEq K]

@[simp] theorem get_insert (m : GoMap K V) (k a : K) (v : V) :
    (m.insert k v)[a]? = if k = a then some v else m[a]? := by
  rw [Std.ExtTreeMap.getElem?_insert]
  simp only [Std.LawfulEqCmp.compare_eq_iff_eq]

@[simp] theorem get_erase (m : GoMap K V) (k a : K) :
    (m.erase k)[a]? = if k = a then none else m[a]? := by
  rw [Std.ExtTreeMap.getElem?_erase]
  simp only [Std.LawfulEqCmp.compare_eq_iff_eq]

/-- Deleting a list of keys, one after the other. -/
def eraseKeys (m : GoMap K V) (ks : List K) : GoMap K V := ks.foldl (·.erase ·) m

theorem get_eraseKeys (m : GoMap K V) (ks : List K) (a : K) :
    (m.eraseKeys ks)[a]? = if a ∈ ks then none else m[a]? := by
  induction ks generalizing m with
  | nil => simp [eraseKeys]
  | cons k ks ih =>
    have he : m.eraseKeys (k :: ks) = eraseKeys (m.erase k) ks := rfl
    rw [he, ih, get_erase]
    by_cases ha : a ∈ ks
    · simp [ha]
    · by_cases hk : k = a
      · simp [hk]
      · simp [ha, hk, Ne.symm hk]

/-- Writing a list of entries, one after the other. -/
def insertAll (m : GoMap K V) (es : List (K × V)) : GoMap K V :=
  es.foldl (fun m e => m.insert e.1 e.2) m

theorem get_insertAll_snoc (m : GoMap K V) (es : List (K × V)) (e : K × V) (k : K) :
    (m.insertAll (es ++ [e]))[k]? = if e.1 = k then some e.2 else (m.insertAll es)[k]? := by
  rw [insertAll, List.foldl_append]
  exact get_insert _ e.1 k e.2

theorem mem_of_get_insertAll {m : GoMap K V} {es : List (K × V)} {k : K} {v : V}
    (h : (m.insertAll es)[k]? = some v) : (k, v) ∈ es ∨ m[k]? = some v := by
  induction es using List.reverseRecOn with
  | nil => exact .inr h
  | append_singleton es e ih =>
    rw [get_insertAll_snoc] at h
    split at h
    · rename_i hk
      cases h
      left
      rw [← hk]
      exact List.mem_append_right es List.mem_cons_self
    · exact (ih h).imp_left (List.mem_append_left [e])

theorem exists_get_insertAll {m : GoMap K V} {es : List (K × V)} {k : K} {v : V}
    (h : (k, v) ∈ es) : ∃ v', (m.insertAll es)[k]? = some v' := by
  induction es using List.reverseRecOn with
  | nil => cases h
  | append_singleton es e ih =>
    rw [get_insertAll_snoc]
    split
    · exact ⟨e.2, rfl⟩
    · rename_i hk
      rcases List.mem_append.1 h with h | h
      · exact ih h
      · rw [← List.mem_singleton.1 h] at hk
        exact absurd rfl hk

theorem get_insertAll {es : List (K × V)} {k : K} {v : V}
    (h : ∀ v', (k, v') ∈ es → ∀ v, (k, v) ∈ es → v = v') :
    ((∅ : GoMap K V).insertAll es)[k]? = some v ↔ (k, v) ∈ es := by
  constructor
  · intro hv
    rcases mem_of_get_insertAll hv with hv | hv
    · exact hv
    · rw [get_empty] at hv
      cases hv
  · intro hv
    obtain ⟨v', hv'⟩ := exists_get_insertAll (m := ∅) hv
    rcases mem_of_get_insertAll hv' with hm | hm
    · rw [hv', h v' hm v hv]
    · rw [get_empty] at hm
      cases hm

theorem insertAll_toList (m : GoMap K V) : (∅ : GoMap K V).insertAll m.toList = m := by
  apply Std.ExtTreeMap.ext_getElem?
  intro k
  apply Option.ext
  intro v
  rw [get_insertAll, mem_toList]
  intro v' hv' v hv
  rw [mem_toList] at hv hv'
  exact Option.some.inj (hv.symm.trans hv')

end GoMap

end HyruleProxy
