import Mathlib.Data.Set.Card
import Mathlib.Data.Set.Finite.List

namespace HyruleProxy
set_option autoImplicit true

/-- One number bounds the sizes of all the sets. -/
def Bounded (S : ι → Set α) : Prop := ∃ K : Nat, ∀ i, (S i).encard ≤ K

namespace Bounded

theorem const (h : A.Finite) : Bounded fun _ : ι => A :=
  ⟨h.toFinset.card, fun _ => h.encard_eq_coe_toFinset_card.le⟩

theorem mono {S T : ι → Set α} (h : Bounded T) (hsub : ∀ i, S i ⊆ T i) : Bounded S := by
  obtain ⟨K, hK⟩ := h
  exact ⟨K, fun i => (Set.encard_le_encard (hsub i)).trans (hK i)⟩

theorem union {S T : ι → Set α} (hS : Bounded S) (hT : Bounded T) :
    Bounded fun i => S i ∪ T i := by
  obtain ⟨K, hK⟩ := hS
  obtain ⟨L, hL⟩ := hT
  refine ⟨K + L, ?_⟩
  intro i
  rw [Nat.cast_add]
  exact (Set.encard_union_le _ _).trans (add_le_add (hK i) (hL i))

theorem image {S : ι → Set α} (h : Bounded S) (f : ι → α → β) : Bounded fun i => f i '' S i := by
  obtain ⟨K, hK⟩ := h
  exact ⟨K, fun i => (Set.encard_image_le _ _).trans (hK i)⟩

theorem image2 {S : ι → Set α} {T : ι → Set β} (hS : Bounded S) (hT : Bounded T)
    (f : α → β → γ) : Bounded fun i => Set.image2 f (S i) (T i) := by
  obtain ⟨K, hK⟩ := hS
  obtain ⟨L, hL⟩ := hT
  refine ⟨K * L, ?_⟩
  intro i
  calc (Set.image2 f (S i) (T i)).encard
      = (Function.uncurry f '' S i ×ˢ T i).encard := by rw [Set.image_uncurry_prod]
    _ ≤ (S i ×ˢ T i).encard := Set.encard_image_le _ _
    _ = (S i).encard * (T i).encard := Set.encard_prod
    _ ≤ K * L := mul_le_mul' (hK i) (hL i)
    _ = ((K * L : Nat) : ℕ∞) := (Nat.cast_mul K L).symm

theorem finite {S : ι → Set α} (h : Bounded S) (i : ι) : (S i).Finite := by
  obtain ⟨K, hK⟩ := h
  exact Set.finite_of_encard_le_coe (hK i)

end Bounded

/-- The distinct values along any list of inputs are bounded in number exactly when the inputs have
boundedly many values between them. -/
theorem card_bounded_iff [DecidableEq β] (f : ι → α → List β) (A : ι → Set α) :
    (∃ N, ∀ i, ∀ xs : List α, (∀ x ∈ xs, x ∈ A i) → (xs.flatMap (f i)).toFinset.card ≤ N) ↔
      Bounded fun i => {y | ∃ x ∈ A i, y ∈ f i x} := by
  constructor
  · rintro ⟨N, hN⟩
    refine ⟨N, ?_⟩
    intro i
    by_contra hlt
    obtain ⟨t, ht, hcard⟩ := Set.exists_subset_encard_eq (Order.add_one_le_of_lt (not_le.1 hlt))
    have hfin : t.Finite := Set.finite_of_encard_eq_coe (k := N + 1) hcard
    choose g hg hf using fun y : hfin.toFinset => ht (hfin.mem_toFinset.1 y.2)
    have hle := hN i (hfin.toFinset.attach.toList.map g) (by
      intro x hx
      obtain ⟨y, _, rfl⟩ := List.mem_map.1 hx
      exact hg y)
    have hsub : hfin.toFinset ⊆
        ((hfin.toFinset.attach.toList.map g).flatMap (f i)).toFinset := by
      intro y hy
      rw [List.mem_toFinset, List.mem_flatMap]
      refine ⟨g ⟨y, hy⟩, List.mem_map.2 ⟨⟨y, hy⟩, ?_, rfl⟩, hf ⟨y, hy⟩⟩
      exact Finset.mem_toList.2 (Finset.mem_attach _ _)
    have hcount := (Finset.card_le_card hsub).trans hle
    rw [hfin.encard_eq_coe_toFinset_card] at hcard
    have hnat : hfin.toFinset.card = N + 1 := by exact_mod_cast hcard
    omega
  · rintro ⟨K, hK⟩
    refine ⟨K, ?_⟩
    intro i xs hxs
    have hsub : ((xs.flatMap (f i)).toFinset : Set β) ⊆ {y | ∃ x ∈ A i, y ∈ f i x} := by
      intro y hy
      obtain ⟨x, hx, hyx⟩ := List.mem_flatMap.1 (List.mem_toFinset.1 (Finset.mem_coe.1 hy))
      exact ⟨x, hxs x hx, hyx⟩
    have hle := (Set.encard_le_encard hsub).trans (hK i)
    rw [Set.encard_coe_eq_coe_finsetCard] at hle
    exact_mod_cast hle

end HyruleProxy
