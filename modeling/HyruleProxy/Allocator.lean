import HyruleProxy.GoMap

namespace HyruleProxy
set_option autoImplicit true

/-- The allocator of public data ports over the inclusive range `[min, max]`. -/
structure PortAllocator where
  min : Int
  max : Int
  next : Int
  used : Finset Int
  deriving DecidableEq

def newPortAllocator (min max : Int) : PortAllocator := ⟨min, max, min, ∅⟩

namespace PortAllocator

def reserve (a : PortAllocator) (port : Int) : PortAllocator :=
  if a.min ≤ port ∧ port ≤ a.max then { a with used := insert port a.used } else a

def release (a : PortAllocator) (port : Int) : PortAllocator :=
  { a with used := a.used.erase port }

def free (a : PortAllocator) : Int := a.max - a.min + 1 - a.used.card

def advance (a : PortAllocator) : PortAllocator :=
  { a with next := if a.next + 1 > a.max then a.min else a.next + 1 }

/-- The loop of `allocate`, whose first argument counts the candidates left. -/
def allocateLoop (portInUse : Int → Bool) : Nat → PortAllocator → Option Int × PortAllocator
  | 0, a => (none, a)
  | n + 1, a =>
    let port := a.next
    let a := a.advance
    if port ∈ a.used then allocateLoop portInUse n a
    else if portInUse port then allocateLoop portInUse n a
    else (some port, { a with used := insert port a.used })

def allocate (portInUse : Int → Bool) (a : PortAllocator) : Option Int × PortAllocator :=
  allocateLoop portInUse (a.max - a.min + 1).toNat a

/-- The cursor is inside the range, unless that is empty. -/
def InRange (a : PortAllocator) : Prop := a.min ≤ a.max → a.min ≤ a.next ∧ a.next ≤ a.max

theorem InRange.advance (h : InRange a) : InRange a.advance := by
  simp only [InRange, PortAllocator.advance] at h ⊢
  intro hr
  have hn := h hr
  split <;> omega

theorem inRange_new (min max : Int) : InRange (newPortAllocator min max) :=
  fun h => ⟨Int.le_refl _, h⟩

/-- What the loop can do: give out a free port of the range, or only move the cursor. -/
def AllocateSpec (portInUse : Int → Bool) (a : PortAllocator) :
    Option Int × PortAllocator → Prop
  | (some port, a') => a.min ≤ port ∧ port ≤ a.max ∧ port ∉ a.used ∧ portInUse port = false ∧
      InRange a' ∧ a' = { a with next := a'.next, used := insert port a.used }
  | (none, a') => InRange a' ∧ a' = { a with next := a'.next }

theorem allocateLoop_spec (portInUse : Int → Bool) (n : Nat) (hr : a.min ≤ a.max)
    (h : InRange a) : AllocateSpec portInUse a (allocateLoop portInUse n a) := by
  induction n generalizing a with
  | zero => exact ⟨h, rfl⟩
  | succ n ih =>
    have hs := ih (a := a.advance) hr h.advance
    have hskip : AllocateSpec portInUse a (allocateLoop portInUse n a.advance) := by
      revert hs
      rcases allocateLoop portInUse n a.advance with ⟨_ | port, a'⟩ <;> exact id
    simp only [allocateLoop]
    split
    · exact hskip
    · split
      · exact hskip
      · rename_i hu hb
        exact ⟨(h hr).1, (h hr).2, hu, by simpa using hb, h.advance, rfl⟩

theorem allocate_spec (portInUse : Int → Bool) (h : InRange a) :
    AllocateSpec portInUse a (allocate portInUse a) := by
  by_cases hr : a.min ≤ a.max
  · exact allocateLoop_spec portInUse _ hr h
  · have hz : (a.max - a.min + 1).toNat = 0 := by omega
    rw [allocate, hz]
    exact ⟨h, rfl⟩

end PortAllocator

end HyruleProxy
