import HyruleProxy.Allocator

namespace HyruleProxy
set_option autoImplicit true

section Cyclic

variable {lo hi start : Int}

/-- The `k`-th port after `start` in the cyclic order of `[lo, hi]`. -/
def cyclicNth (lo hi start : Int) (k : Nat) : Int := lo + (start - lo + k) % (hi - lo + 1)

def cyclicSucc (lo hi port : Int) : Int := if port = hi then lo else port + 1

theorem cyclicNth_mem (h : lo ≤ hi) (start : Int) (k : Nat) :
    lo ≤ cyclicNth lo hi start k ∧ cyclicNth lo hi start k ≤ hi := by
  have h₁ := Int.emod_nonneg (start - lo + k) (b := hi - lo + 1) (by omega)
  have h₂ := Int.emod_lt_of_pos (start - lo + k) (b := hi - lo + 1) (by omega)
  rw [cyclicNth]
  omega

theorem cyclicNth_zero (h : lo ≤ start ∧ start ≤ hi) : cyclicNth lo hi start 0 = start := by
  have he := Int.emod_eq_of_lt (a := start - lo + (0 : Nat)) (b := hi - lo + 1) (by omega)
    (by omega)
  rw [cyclicNth, he]
  omega

theorem cyclicNth_succ_start (lo hi start : Int) (k : Nat) :
    cyclicNth lo hi (cyclicSucc lo hi start) k = cyclicNth lo hi start (k + 1) := by
  rw [cyclicNth, cyclicNth, cyclicSucc]
  split
  · have he : start - lo + ((k + 1 : Nat) : Int) = lo - lo + k + (hi - lo + 1) := by omega
    rw [he, Int.add_emod_right]
  · have he : start - lo + ((k + 1 : Nat) : Int) = start + 1 - lo + k := by omega
    rw [he]

theorem cyclicNth_add (lo hi start : Int) (j k : Nat) :
    cyclicNth lo hi (cyclicNth lo hi start j) k = cyclicNth lo hi start (j + k) := by
  have he : lo + (start - lo + j) % (hi - lo + 1) - lo + (k : Int) =
      (start - lo + j) % (hi - lo + 1) + k := by omega
  have he' : start - lo + ((j + k : Nat) : Int) = start - lo + j + k := by omega
  rw [cyclicNth, cyclicNth, cyclicNth, he, he', Int.emod_add_emod]

theorem cyclicSucc_nth (h : lo ≤ hi) (start : Int) (k : Nat) :
    cyclicSucc lo hi (cyclicNth lo hi start k) = cyclicNth lo hi start (k + 1) := by
  have hm := cyclicNth_mem h start k
  rw [← cyclicNth_add, ← cyclicNth_succ_start, cyclicNth_zero]
  rw [cyclicSucc]
  split <;> omega

theorem exists_cyclicNth (h : lo ≤ start ∧ start ≤ hi) {q : Int} (hq : lo ≤ q ∧ q ≤ hi) :
    ∃ k < (hi - lo + 1).toNat, cyclicNth lo hi start k = q := by
  have h₁ := Int.emod_nonneg (q - start) (b := hi - lo + 1) (by omega)
  have h₂ := Int.emod_lt_of_pos (q - start) (b := hi - lo + 1) (by omega)
  refine ⟨((q - start) % (hi - lo + 1)).toNat, by omega, ?_⟩
  have he : start - lo + (q - start) = q - lo := by omega
  rw [cyclicNth, Int.toNat_of_nonneg h₁, Int.add_emod_emod, he,
    Int.emod_eq_of_lt (by omega) (by omega)]
  omega

theorem cyclicNth_span (h : lo ≤ start ∧ start ≤ hi) :
    cyclicNth lo hi start (hi - lo + 1).toNat = start := by
  rw [cyclicNth, Int.toNat_of_nonneg (by omega), Int.add_emod_right,
    Int.emod_eq_of_lt (by omega) (by omega)]
  omega

theorem span_le_of_cyclicNth_eq (h : lo ≤ start ∧ start ≤ hi) {k : Nat} (hk : 0 < k)
    (he : cyclicNth lo hi start k = start) : (hi - lo + 1).toNat ≤ k := by
  have hmod : (start - lo + k) % (hi - lo + 1) = (start - lo) % (hi - lo + 1) := by
    rw [Int.emod_eq_of_lt (a := start - lo) (by omega) (by omega)]
    rw [cyclicNth] at he
    omega
  rw [Int.emod_eq_emod_iff_emod_sub_eq_zero] at hmod
  have hsub : start - lo + k - (start - lo) = k := by omega
  rw [hsub] at hmod
  have hle := Int.le_of_dvd (by omega) (Int.dvd_of_emod_eq_zero hmod)
  omega

end Cyclic

namespace PortAllocator

variable {a : PortAllocator} {portInUse : Int → Bool}

/-- The states in which the loop of `allocate` takes its candidates. -/
def examined (portInUse : Int → Bool) : Nat → PortAllocator → List PortAllocator
  | 0, _ => []
  | n + 1, a =>
    a :: if a.next ∈ a.used ∨ portInUse a.next then examined portInUse n a.advance else []

def span (a : PortAllocator) : Nat := (a.max - a.min + 1).toNat

/-- The `k`-th candidate of the loop. -/
def nth (a : PortAllocator) (k : Nat) : Int := cyclicNth a.min a.max a.next k

/-- The `k`-th candidate is passed over. -/
def Taken (a : PortAllocator) (portInUse : Int → Bool) (port : Int) : Prop :=
  port ∈ a.used ∨ portInUse port = true

/-- The cursor is inside a range that is not empty. -/
def Cursor (a : PortAllocator) : Prop := a.min ≤ a.next ∧ a.next ≤ a.max

theorem Cursor.range (h : a.Cursor) : a.min ≤ a.max := h.1.trans h.2

theorem next_advance (h : a.Cursor) : a.advance.next = cyclicSucc a.min a.max a.next := by
  obtain ⟨h₁, h₂⟩ := h
  simp only [advance, cyclicSucc]
  split <;> split <;> omega

theorem Cursor.advance (h : a.Cursor) : a.advance.Cursor := by
  have hn := next_advance h
  have hm := cyclicNth_mem h.range a.next 1
  rw [← cyclicSucc_nth h.range, cyclicNth_zero h] at hm
  rw [Cursor, hn]
  exact hm

theorem nth_advance (h : a.Cursor) (k : Nat) : a.advance.nth k = a.nth (k + 1) := by
  rw [nth, next_advance h]
  exact cyclicNth_succ_start _ _ _ k

/-- What the loop does with `n` candidates, of which it examines the first `m`. -/
structure Scans (portInUse : Int → Bool) (n : Nat) (a : PortAllocator) (m : Nat) : Prop where
  le : m ≤ n
  examined : a.examined portInUse n = (List.range m).map fun k => { a with next := a.nth k }
  result : (m = n ∧ (∀ k < n, a.Taken portInUse (a.nth k)) ∧
      allocateLoop portInUse n a = (none, { a with next := a.nth n })) ∨
    ∃ k, m = k + 1 ∧ (∀ j < k, a.Taken portInUse (a.nth j)) ∧ ¬ a.Taken portInUse (a.nth k) ∧
      allocateLoop portInUse n a =
        (some (a.nth k), { a with next := a.nth (k + 1), used := insert (a.nth k) a.used })

theorem scans_zero (portInUse : Int → Bool) (h : a.Cursor) : Scans portInUse 0 a 0 := by
  refine ⟨Nat.le_refl 0, rfl, .inl ⟨rfl, by simp, ?_⟩⟩
  rw [nth, cyclicNth_zero h]
  rfl

theorem Scans.succ (h : a.Cursor) (ht : a.Taken portInUse a.next)
    (hs : Scans portInUse n a.advance m) : Scans portInUse (n + 1) a (m + 1) := by
  have h0 : a.nth 0 = a.next := cyclicNth_zero h
  have hloop : allocateLoop portInUse (n + 1) a = allocateLoop portInUse n a.advance := by
    simp only [allocateLoop]
    split
    · rfl
    · rename_i hu
      rw [if_pos (ht.resolve_left hu)]
  have hskip {i : Nat} (hi : ∀ j < i, a.advance.Taken portInUse (a.advance.nth j)) :
      ∀ j < i + 1, a.Taken portInUse (a.nth j) := by
    intro j hj
    cases j with
    | zero =>
      rw [h0]
      exact ht
    | succ j =>
      rw [← nth_advance h]
      exact hi j (by omega)
  refine ⟨by have := hs.le; omega, ?_, ?_⟩
  · have hrest := hs.examined
    simp only [nth_advance h] at hrest
    have ht' : a.next ∈ a.used ∨ portInUse a.next = true := ht
    rw [PortAllocator.examined, if_pos ht', hrest, List.range_succ_eq_map, List.map_cons,
      List.map_map, h0]
    rfl
  · rcases hs.result with ⟨rfl, hall, he⟩ | ⟨k, rfl, hall, hfree, he⟩
    · refine .inl ⟨rfl, hskip hall, ?_⟩
      rw [hloop, he, nth_advance h]
      rfl
    · refine .inr ⟨k + 1, rfl, hskip hall, ?_, ?_⟩
      · rw [← nth_advance h]
        exact hfree
      · rw [hloop, he, nth_advance h, nth_advance h]
        rfl

theorem scans (portInUse : Int → Bool) (n : Nat) (h : a.Cursor) :
    ∃ m, Scans portInUse n a m := by
  induction n generalizing a with
  | zero => exact ⟨0, scans_zero portInUse h⟩
  | succ n ih =>
    by_cases ht : a.Taken portInUse a.next
    · obtain ⟨m, hs⟩ := ih h.advance
      exact ⟨m + 1, hs.succ h ht⟩
    · have h0 : a.nth 0 = a.next := cyclicNth_zero h
      have h1 : a.nth 1 = a.advance.next := by
        rw [← nth_advance h]
        exact cyclicNth_zero h.advance
      refine ⟨1, by omega, ?_, .inr ⟨0, rfl, by simp, by rw [h0]; exact ht, ?_⟩⟩
      · have hn : ¬ (a.next ∈ a.used ∨ portInUse a.next = true) := ht
        rw [examined, if_neg hn]
        simp [h0]
      · obtain ⟨hu, hb⟩ := not_or.1 ht
        have hu' : a.next ∉ a.advance.used := hu
        simp only [allocateLoop, if_neg hu', if_neg hb, h0, h1]
        rfl

/-- `port` is the first in cyclic order from the cursor that is neither used nor busy. -/
def FirstFree (a : PortAllocator) (portInUse : Int → Bool) (port : Int) : Prop :=
  ∃ k < a.span, a.nth k = port ∧ ¬ a.Taken portInUse port ∧
    ∀ j < k, a.Taken portInUse (a.nth j)

theorem FirstFree.mem (h : a.Cursor) (hf : a.FirstFree portInUse port) :
    a.min ≤ port ∧ port ≤ a.max := by
  obtain ⟨k, _, rfl, _⟩ := hf
  exact cyclicNth_mem h.range a.next k

/-- `allocate` gives out the first free port, or changes nothing when there is none. -/
theorem allocate_cases (portInUse : Int → Bool) (h : a.Cursor) :
    ((∀ p, a.min ≤ p → p ≤ a.max → a.Taken portInUse p) ∧ a.allocate portInUse = (none, a)) ∨
      ∃ p, a.FirstFree portInUse p ∧ a.allocate portInUse =
        (some p, { a with next := cyclicSucc a.min a.max p, used := insert p a.used }) := by
  obtain ⟨m, hs⟩ := scans portInUse a.span h
  rcases hs.result with ⟨_, hall, he⟩ | ⟨k, hm, hall, hfree, he⟩
  · refine .inl ⟨?_, ?_⟩
    · intro p h₁ h₂
      obtain ⟨k, hk, rfl⟩ := exists_cyclicNth h ⟨h₁, h₂⟩
      exact hall k hk
    · have hback : a.nth a.span = a.next := cyclicNth_span h
      rw [hback] at he
      exact he
  · refine .inr ⟨a.nth k, ⟨k, ?_, rfl, hfree, hall⟩, ?_⟩
    · have := hs.le
      omega
    · rw [nth, cyclicSucc_nth h.range]
      exact he

/-- A call of the store on its allocator; the bind probes answer anew in each `allocate`. -/
inductive PortOp where
  | reserve (port : Int)
  | release (port : Int)
  | allocate (portInUse : Int → Bool)

def apply (a : PortAllocator) : PortOp → PortAllocator
  | .reserve port => a.reserve port
  | .release port => a.release port
  | .allocate portInUse => (a.allocate portInUse).2

def run (a : PortAllocator) (ops : List PortOp) : PortAllocator := ops.foldl apply a

theorem Cursor.apply (h : a.Cursor) (op : PortOp) :
    (a.apply op).Cursor ∧ (a.apply op).min = a.min ∧ (a.apply op).max = a.max := by
  cases op with
  | reserve port =>
    simp only [PortAllocator.apply, reserve]
    split
    · exact ⟨h, rfl, rfl⟩
    · exact ⟨h, rfl, rfl⟩
  | release port => exact ⟨h, rfl, rfl⟩
  | allocate portInUse =>
    rcases allocate_cases portInUse h with ⟨_, he⟩ | ⟨p, hf, he⟩
    · rw [PortAllocator.apply, he]
      exact ⟨h, rfl, rfl⟩
    · rw [PortAllocator.apply, he]
      refine ⟨?_, rfl, rfl⟩
      have hm := hf.mem h
      simp only [Cursor, cyclicSucc]
      split <;> omega

theorem Cursor.run (h : a.Cursor) (ops : List PortOp) :
    (a.run ops).Cursor ∧ (a.run ops).min = a.min ∧ (a.run ops).max = a.max := by
  induction ops generalizing a with
  | nil => exact ⟨h, rfl, rfl⟩
  | cons op ops ih =>
    obtain ⟨h₁, hmin, hmax⟩ := h.apply op
    obtain ⟨h₂, hmin', hmax'⟩ := ih h₁
    exact ⟨h₂, hmin'.trans hmin, hmax'.trans hmax⟩

theorem cursor_new (h : lo ≤ hi) : (newPortAllocator lo hi).Cursor := ⟨Int.le_refl lo, h⟩

/-- Allocation is exact in every state that calls on a new allocator can reach. -/
theorem allocate_exact (h : lo ≤ hi) (ops : List PortOp) (portInUse : Int → Bool) :
    let a := (newPortAllocator lo hi).run ops
    (lo ≤ a.next ∧ a.next ≤ hi) ∧
      ((a.allocate portInUse).1 = none ↔
        ∀ p, lo ≤ p → p ≤ hi → p ∈ a.used ∨ portInUse p = true) ∧
      ((a.allocate portInUse).1 = none → (a.allocate portInUse).2 = a) ∧
      ∀ p, (a.allocate portInUse).1 = some p →
        (∃ k < (hi - lo + 1).toNat, cyclicNth lo hi a.next k = p ∧
          (p ∉ a.used ∧ portInUse p = false) ∧
          ∀ j < k, cyclicNth lo hi a.next j ∈ a.used ∨
            portInUse (cyclicNth lo hi a.next j) = true) ∧
        (a.allocate portInUse).2 =
          { a with next := cyclicSucc lo hi p, used := insert p a.used } := by
  intro a
  obtain ⟨hc, hmin, hmax⟩ := (cursor_new h).run ops
  change a.Cursor at hc
  change a.min = lo at hmin
  change a.max = hi at hmax
  rw [← hmin, ← hmax]
  refine ⟨hc, ?_⟩
  rcases allocate_cases portInUse hc with ⟨hall, he⟩ | ⟨p, hf, he⟩
  · rw [he]
    refine ⟨⟨fun _ => hall, fun _ => rfl⟩, fun _ => rfl, ?_⟩
    intro p hp
    cases hp
  · rw [he]
    have hm := hf.mem hc
    obtain ⟨k, hk, hp, hfree, hbefore⟩ := hf
    refine ⟨⟨?_, ?_⟩, ?_, ?_⟩
    · intro hn
      cases hn
    · intro hall
      exact absurd (hall p hm.1 hm.2) hfree
    · intro hn
      cases hn
    · intro p' hp'
      cases hp'
      obtain ⟨hu, hb⟩ := not_or.1 hfree
      exact ⟨⟨k, hk, hp, ⟨hu, by simpa using hb⟩, hbefore⟩, rfl⟩

/-- A range of one port: given out once, and again after its release. -/
theorem allocate_exact_one_port :
    ((newPortAllocator 7 7).allocate fun _ => false).1 = some 7 ∧
      (((newPortAllocator 7 7).run [.allocate fun _ => false]).allocate fun _ => false).1 = none ∧
      7 ≤ ((newPortAllocator 7 7).run [.allocate fun _ => false, .release 7]).next := by
  refine ⟨by decide, by decide, ?_⟩
  exact (allocate_exact (Int.le_refl 7) [.allocate fun _ => false, .release 7] fun _ => false).1.1

/-- Some `allocate` among `ops` examined `port`, in the state `x`, and passed it over or gave it
out. -/
def Examines (a : PortAllocator) (ops : List PortOp) (port : Int) : Prop :=
  ∃ i portInUse x, ops[i]? = some (.allocate portInUse) ∧
    x ∈ (a.run (ops.take i)).examined portInUse (a.run (ops.take i)).span ∧ x.next = port ∧
    (port ∈ x.used ∨ portInUse port = true ∨
      ((a.run (ops.take i)).allocate portInUse).1 = some port)

theorem Examines.cons (h : (a.apply op).Examines ops port) : a.Examines (op :: ops) port := by
  obtain ⟨i, portInUse, x, hi, hx⟩ := h
  exact ⟨i + 1, portInUse, x, hi, hx⟩

theorem Examines.append_right (h : (a.run ops).Examines ops' port) :
    a.Examines (ops ++ ops') port := by
  induction ops generalizing a with
  | nil => exact h
  | cons op ops ih => exact (ih h).cons

theorem Examines.append_left (h : a.Examines ops port) (ops' : List PortOp) :
    a.Examines (ops ++ ops') port := by
  obtain ⟨i, portInUse, x, hi, hx⟩ := h
  have hlt := (List.getElem?_eq_some_iff.1 hi).1
  refine ⟨i, portInUse, x, ?_, ?_⟩
  · rw [List.getElem?_append_left hlt, hi]
  · rw [List.take_append_of_le_length hlt.le]
    exact hx

theorem nth_of_next {b : PortAllocator} (hmin : b.min = a.min) (hmax : b.max = a.max)
    (hn : b.next = a.nth j) (k : Nat) : b.nth k = a.nth (j + k) := by
  rw [nth, hmin, hmax, hn]
  exact cyclicNth_add _ _ _ j k

theorem allocate_moves (portInUse : Int → Bool) (ops : List PortOp) (h : a.Cursor) :
    ∃ m, (a.allocate portInUse).2.next = a.nth m ∧
      (∀ p, (a.allocate portInUse).1 = some p → 0 < m) ∧
      ∀ k < m, a.Examines (.allocate portInUse :: ops) (a.nth k) := by
  obtain ⟨m, hs⟩ := scans portInUse a.span h
  have hmem {k : Nat} (hk : k < m) :
      { a with next := a.nth k } ∈ a.examined portInUse a.span := by
    rw [hs.examined]
    exact List.mem_map.2 ⟨k, List.mem_range.2 hk, rfl⟩
  have hskip {k : Nat} (hk : k < m) (ht : a.Taken portInUse (a.nth k)) :
      a.Examines (.allocate portInUse :: ops) (a.nth k) :=
    ⟨0, portInUse, _, rfl, hmem hk, rfl, ht.imp_right .inl⟩
  rcases hs.result with ⟨hm, hall, he⟩ | ⟨i, hm, hall, hfree, he⟩
  · refine ⟨m, ?_, ?_, ?_⟩
    · rw [hm]
      exact congrArg (fun r => r.2.next) he
    · intro p hp
      have hn : (a.allocate portInUse).1 = none := congrArg Prod.fst he
      rw [hn] at hp
      cases hp
    · intro k hk
      exact hskip hk (hall k (by omega))
  · refine ⟨m, ?_, fun _ _ => by omega, ?_⟩
    · rw [hm]
      exact congrArg (fun r => r.2.next) he
    · intro k hk
      by_cases hki : k < i
      · exact hskip hk (hall k hki)
      · have hlast : k = i := by omega
        subst hlast
        exact ⟨0, portInUse, _, rfl, hmem hk, rfl, .inr (.inr (congrArg Prod.fst he))⟩

/-- Along any calls the cursor moves over the ports that the calls examine. -/
theorem run_moves (h : a.Cursor) (ops : List PortOp) :
    ∃ m, (a.run ops).next = a.nth m ∧ ∀ k < m, a.Examines ops (a.nth k) := by
  induction ops generalizing a with
  | nil => exact ⟨0, (cyclicNth_zero h).symm, by simp⟩
  | cons op ops ih =>
    obtain ⟨h', hmin, hmax⟩ := h.apply op
    obtain ⟨m, hnext, hex⟩ := ih h'
    have hstep : ∃ j, (a.apply op).next = a.nth j ∧ ∀ k < j, a.Examines (op :: ops) (a.nth k) := by
      cases op with
      | reserve port =>
        refine ⟨0, ?_, by simp⟩
        rw [nth, cyclicNth_zero h, apply, reserve]
        split <;> rfl
      | release port => exact ⟨0, (cyclicNth_zero h).symm, by simp⟩
      | allocate portInUse =>
        obtain ⟨j, hj, _, hex'⟩ := allocate_moves portInUse ops h
        exact ⟨j, hj, hex'⟩
    obtain ⟨j, hj, hexj⟩ := hstep
    refine ⟨j + m, hnext.trans (nth_of_next hmin hmax hj m), ?_⟩
    intro k hk
    by_cases hkj : k < j
    · exact hexj k hkj
    · have hsub := hex (k - j) (by omega)
      rw [nth_of_next hmin hmax hj, Nat.add_sub_cancel' (by omega)] at hsub
      exact hsub.cons

theorem allocate_eq_some (h : a.Cursor) (hp : (a.allocate portInUse).1 = some p) :
    (a.min ≤ p ∧ p ≤ a.max) ∧ (a.allocate portInUse).2 =
      { a with next := cyclicSucc a.min a.max p, used := insert p a.used } := by
  rcases allocate_cases portInUse h with ⟨_, he⟩ | ⟨p', hf, he⟩
  · rw [he] at hp
    cases hp
  · rw [he] at hp ⊢
    cases hp
    exact ⟨hf.mem h, rfl⟩

/-- Between two allocations of `p` the calls examine every port of the range: the cursor starts
right after `p` and comes back to it. -/
theorem examines_between (h : a.Cursor) (hp : (a.allocate f).1 = some p) (ops : List PortOp)
    (hg : (((a.allocate f).2.run ops).allocate g).1 = some p) (hq : a.min ≤ q ∧ q ≤ a.max) :
    (a.allocate f).2.Examines (ops ++ [.allocate g]) q := by
  obtain ⟨hb, hbmin, hbmax⟩ := h.apply (.allocate f)
  have hbeq := (allocate_eq_some h hp).2
  change (a.allocate f).2.Cursor at hb
  change (a.allocate f).2.min = a.min at hbmin
  change (a.allocate f).2.max = a.max at hbmax
  generalize (a.allocate f).2 = b at *
  obtain ⟨hc, hcmin, hcmax⟩ := hb.run ops
  obtain ⟨m, hm, hex⟩ := run_moves hb ops
  obtain ⟨n, hn, hpos, hex'⟩ := allocate_moves g [] hc
  have hback : b.nth (m + n) = b.next := by
    rw [← nth_of_next hcmin hcmax hm, ← hn, (allocate_eq_some hc hg).2, hcmin, hcmax, hbmin, hbmax,
      hbeq]
  have hspan := span_le_of_cyclicNth_eq hb (by have := hpos p hg; omega) hback
  obtain ⟨k, hk, rfl⟩ := exists_cyclicNth hb (q := q) (by rw [hbmin, hbmax]; exact hq)
  by_cases hkm : k < m
  · exact (hex k hkm).append_left _
  · have hlast := hex' (k - m) (by omega)
    rw [nth_of_next hcmin hcmax hm, Nat.add_sub_cancel' (by omega)] at hlast
    exact hlast.append_right

theorem used_examined {n : Nat} (hx : x ∈ a.examined portInUse n) : x.used = a.used := by
  induction n generalizing a with
  | zero => cases hx
  | succ n ih =>
    rw [examined] at hx
    rcases List.mem_cons.1 hx with rfl | hx
    · rfl
    · split at hx
      · have hu : x.used = a.advance.used := ih hx
        exact hu
      · cases hx

/-- A freed port is reused last. -/
theorem reused_last (h : lo ≤ hi) (ops₀ : List PortOp)
    (hp : (((newPortAllocator lo hi).run ops₀).allocate f).1 = some p) (ops : List PortOp)
    (hg : (((((newPortAllocator lo hi).run ops₀).allocate f).2.run ops).allocate g).1 = some p) :
    let b := (((newPortAllocator lo hi).run ops₀).allocate f).2
    (∀ q, lo ≤ q → q ≤ hi → q ≠ p → b.Examines (ops ++ [.allocate g]) q) ∧
      ¬ ∃ q, (lo ≤ q ∧ q ≤ hi) ∧ q ≠ p ∧ (∀ i, q ∉ (b.run (ops.take i)).used) ∧
        ∀ portInUse, .allocate portInUse ∈ ops ++ [.allocate g] → portInUse q = false := by
  intro b
  obtain ⟨hc, hmin, hmax⟩ := (cursor_new h).run ops₀
  have hb : b.Cursor := (hc.apply (.allocate f)).1
  have hex {q : Int} (h₁ : lo ≤ q) (h₂ : q ≤ hi) : b.Examines (ops ++ [.allocate g]) q :=
    examines_between hc hp ops hg (by rw [hmin, hmax]; exact ⟨h₁, h₂⟩)
  refine ⟨fun q h₁ h₂ _ => hex h₁ h₂, ?_⟩
  rintro ⟨q, ⟨h₁, h₂⟩, hne, hfree, hidle⟩
  obtain ⟨i, portInUse, x, hi, hx, _, hv⟩ := hex h₁ h₂
  have hlt := (List.getElem?_eq_some_iff.1 hi).1
  rw [List.length_append, List.length_singleton] at hlt
  rw [List.take_append_of_le_length (by omega)] at hx hv
  rcases hv with hu | hbusy | hr
  · rw [used_examined hx] at hu
    exact hfree i hu
  · rw [hidle portInUse (List.mem_of_getElem? hi)] at hbusy
    cases hbusy
  · by_cases hlast : i < ops.length
    · -- The call that gave out `q` left it marked.
      have hi' : ops[i]? = some (.allocate portInUse) := by
        rw [← hi, List.getElem?_append_left hlast]
      have hstep : b.run (ops.take (i + 1)) = ((b.run (ops.take i)).allocate portInUse).2 := by
        rw [List.take_add_one, hi', run, List.foldl_append]
        rfl
      have hu := hfree (i + 1)
      rw [hstep, (allocate_eq_some (hb.run _).1 hr).2] at hu
      exact hu (Finset.mem_insert_self q _)
    · have hi' : i = ops.length := by omega
      subst hi'
      rw [List.take_length] at hr
      rw [List.getElem?_append_right (Nat.le_refl _), Nat.sub_self] at hi
      cases hi
      exact hne (Option.some.inj (hr.symm.trans hg))

/-- With two ports the first one comes back only after the second has been given out. -/
theorem reused_last_two_ports :
    (PortAllocator.Examines ((newPortAllocator 7 8).allocate fun _ => false).2
      [.release 7, .allocate fun _ => false, .allocate fun _ => false] 8) := by
  have hp : (((newPortAllocator 7 8).run []).allocate fun _ => false).1 = some 7 := by decide
  exact (reused_last (by decide) [] hp [.release 7, .allocate fun _ => false] (g := fun _ => false)
    (by decide)).1 8 (by decide) (by decide) (by decide)

end PortAllocator

end HyruleProxy
