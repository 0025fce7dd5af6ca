import Mathlib

namespace HyruleProxy
set_option autoImplicit true

/-- The number that a list of digits stands for. -/
def ofDigits (base : Nat) (ds : List Nat) : Nat := ds.foldl (fun n d => n * base + d) 0

section Digits

theorem ofDigits_snoc (base : Nat) (ds : List Nat) (d : Nat) :
    ofDigits base (ds ++ [d]) = ofDigits base ds * base + d := by
  rw [ofDigits, List.foldl_append]
  rfl

theorem ofDigits_eq (base : Nat) (ds : List Nat) :
    ofDigits base ds = Nat.ofDigits base ds.reverse := by
  induction ds using List.reverseRecOn with
  | nil => rfl
  | append_singleton ds d ih =>
    rw [ofDigits_snoc, ih, List.reverse_append, List.reverse_singleton, List.singleton_append,
      Nat.ofDigits_cons, Nat.mul_comm, Nat.add_comm]

variable {base : Nat} (hb : 1 < base)

include hb

theorem ofDigits_lt {ds : List Nat} (h : ∀ d ∈ ds, d < base) :
    ofDigits base ds < base ^ ds.length := by
  rw [ofDigits_eq, ← List.length_reverse]
  apply Nat.ofDigits_lt_base_pow_length hb
  intro d hd
  exact h d (List.mem_reverse.1 hd)

theorem ofDigits_div (xs : List Nat) {ys : List Nat} (h : ∀ d ∈ ys, d < base) :
    ofDigits base (xs ++ ys) / base ^ ys.length = ofDigits base xs := by
  have hlt := ofDigits_lt hb h
  rw [ofDigits_eq] at hlt
  rw [ofDigits_eq, List.reverse_append, Nat.ofDigits_append, List.length_reverse, ofDigits_eq]
  rw [Nat.add_mul_div_left _ _ (Nat.pow_pos (Nat.zero_lt_of_lt hb)), Nat.div_eq_of_lt hlt,
    Nat.zero_add]

theorem ofDigits_inj {xs ys : List Nat} (hl : xs.length = ys.length) (hx : ∀ d ∈ xs, d < base)
    (hy : ∀ d ∈ ys, d < base) : ofDigits base xs = ofDigits base ys ↔ xs = ys := by
  rw [ofDigits_eq, ofDigits_eq, ← List.reverse_inj]
  constructor
  · apply Nat.ofDigits_inj_of_len_eq hb
    · rw [List.length_reverse, List.length_reverse, hl]
    · intro d hd
      exact hx d (List.mem_reverse.1 hd)
    · intro d hd
      exact hy d (List.mem_reverse.1 hd)
  · intro h
    rw [h]

end Digits

end HyruleProxy
