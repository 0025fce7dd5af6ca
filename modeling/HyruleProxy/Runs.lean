import Mathlib.Data.List.Basic
import Mathlib.Tactic

namespace HyruleProxy
set_option autoImplicit true

/-- Where a machine is after a list of inputs, if it takes each of them. -/
def runFrom (step : σ → ι → Option σ) (s : σ) : List ι → Option σ
  | [] => some s
  | i :: is => (step s i).bind fun s' => runFrom step s' is

/-- What holds at the start and is kept by every step holds after every run. -/
theorem runFrom_invariant {step : σ → ι → Option σ} {P : σ → Prop}
    (hstep : ∀ s i s', P s → step s i = some s' → P s') (h : P s)
    (hr : runFrom step s is = some s') : P s' := by
  induction is generalizing s with
  | nil =>
    cases hr
    exact h
  | cons i is ih =>
    obtain ⟨s₁, hs, hr⟩ := Option.bind_eq_some_iff.1 hr
    exact ih (hstep s i s₁ h hs) hr

/-- A quantity that every step brings down by `c` bounds the length of a run. -/
theorem runFrom_potential {step : σ → ι → Option σ} {φ : σ → Nat}
    (hstep : ∀ s i s', step s i = some s' → φ s' + c ≤ φ s) (hr : runFrom step s is = some s') :
    φ s' + c * is.length ≤ φ s := by
  induction is generalizing s with
  | nil =>
    cases hr
    exact Nat.le_refl _
  | cons i is ih =>
    obtain ⟨s₁, hs, hr⟩ := Option.bind_eq_some_iff.1 hr
    have hrest := ih hr
    have hone := hstep s i s₁ hs
    rw [List.length_cons, Nat.mul_succ]
    omega

section Answers

/-- The answers of a machine to a list of inputs, and where it is after them. -/
def runOut (step : σ → ι → ο × σ) : σ → List ι → List ο × σ
  | s, [] => ([], s)
  | s, i :: is => ((step s i).1 :: (runOut step (step s i).2 is).1, (runOut step (step s i).2 is).2)

/-- What every answer to an input satisfies, all its answers in a run satisfy. -/
theorem runOut_answers (step : σ → ι → ο × σ) {Q : ι → ο → Prop}
    (hstep : ∀ s i, Q i (step s i).1) (s : σ) (is : List ι) :
    ∀ io ∈ is.zip (runOut step s is).1, Q io.1 io.2 := by
  induction is generalizing s with
  | nil =>
    intro io hio
    cases hio
  | cons i is ih =>
    intro io hio
    rw [runOut, List.zip_cons_cons] at hio
    rcases List.mem_cons.1 hio with rfl | hio
    · exact hstep s i
    · exact ih _ io hio

/-- A machine whose answers and whose view of its state depend on that view alone, and of whom some
inputs leave the view as it is, behaves towards the others as if those had not come. -/
theorem runOut_purge (step : σ → ι → ο × σ) (view : σ → τ) (heard : ι → Bool)
    (hcongr : ∀ s s' i, view s = view s' →
      (step s i).1 = (step s' i).1 ∧ view (step s i).2 = view (step s' i).2)
    (hquiet : ∀ s i, heard i = false → view (step s i).2 = view s)
    (h : view s = view s') (is : List ι) :
    view (runOut step s is).2 = view (runOut step s' (is.filter heard)).2 ∧
    ((is.zip (runOut step s is).1).filter fun io => heard io.1).map Prod.snd =
      (runOut step s' (is.filter heard)).1 := by
  induction is generalizing s s' with
  | nil => exact ⟨h, rfl⟩
  | cons i is ih =>
    rw [runOut, List.zip_cons_cons, List.filter_cons, List.filter_cons]
    cases hi : heard i with
    | true =>
      obtain ⟨hans, hview⟩ := hcongr s s' i h
      obtain ⟨ih₁, ih₂⟩ := ih hview
      simp only [if_true, runOut, List.map_cons, ih₁, ih₂, hans, and_self]
    | false =>
      simp only [Bool.false_eq_true, if_false]
      exact ih ((hquiet s i hi).trans h)

end Answers

theorem snoc_eq_split {xs pre post : List α} {x a : α} (h : xs ++ [x] = pre ++ a :: post) :
    xs = pre ∧ x = a ∧ post = [] ∨ ∃ post', post = post' ++ [x] ∧ xs = pre ++ a :: post' := by
  induction post using List.reverseRecOn with
  | nil =>
    obtain ⟨h₁, h₂⟩ := List.append_inj' h rfl
    cases h₂
    exact .inl ⟨h₁, rfl, rfl⟩
  | append_singleton post b _ =>
    rw [← List.cons_append, ← List.append_assoc] at h
    obtain ⟨h₁, h₂⟩ := List.append_inj' h rfl
    cases h₂
    exact .inr ⟨post, rfl, h₁⟩

end HyruleProxy
