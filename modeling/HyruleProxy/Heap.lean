import Mathlib.Data.List.Basic
import Mathlib.Tactic

namespace HyruleProxy
set_option autoImplicit true

section Heap

-- A list stands for a heap: its indices are the addresses, and objects are replaced or added at
-- its end.
variable {xs ys : List α} {x y : α} {i : Nat}

theorem getElem?_set_some (h : xs[i]? = some x) (y : α) (j : Nat) :
    (xs.set i y)[j]? = if i = j then some y else xs[j]? := by
  rw [List.getElem?_set]
  have hi := (List.getElem?_eq_some_iff.1 h).1
  simp only [hi, if_true]

theorem getElem?_push (xs : List α) (x : α) (j : Nat) :
    (xs ++ [x])[j]? = if j = xs.length then some x else xs[j]? := by
  rcases lt_trichotomy j xs.length with hj | hj | hj
  · rw [List.getElem?_append_left hj, if_neg hj.ne]
  · simp [hj]
  · rw [if_neg hj.ne', List.getElem?_eq_none (by simp; omega), List.getElem?_eq_none hj.le]

theorem getElem?_of_prefix (h : xs <+: ys) (hx : xs[i]? = some x) : ys[i]? = some x := by
  obtain ⟨zs, rfl⟩ := h
  rw [List.getElem?_append_left (List.getElem?_eq_some_iff.1 hx).1]
  exact hx

theorem set_same (h : xs[i]? = some x) : xs.set i x = xs := by
  obtain ⟨hi, rfl⟩ := List.getElem?_eq_some_iff.1 h
  exact List.set_getElem_self hi

theorem map_set_same {g : α → β} (h : xs[i]? = some x) (hg : g y = g x) :
    (xs.set i y).map g = xs.map g := by
  rw [List.map_set, hg]
  exact set_same (by rw [List.getElem?_map, h, Option.map_some])

end Heap

end HyruleProxy
