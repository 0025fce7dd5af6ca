import HyruleProxy.Lease

namespace HyruleProxy
set_option autoImplicit true

/-- `Time.Sub`, which saturates at the ends of the durations. -/
def timeSub (t u : Time) : Duration := max (-2 ^ 63) (min (2 ^ 63 - 1) (t - u))

theorem timeSub_mono {t t' : Time} (h : t ≤ t') (u : Time) : timeSub t u ≤ timeSub t' u := by
  apply max_le_max_left
  apply min_le_min_left
  exact sub_le_sub_right h u

theorem lt_of_lt_timeSub {t u : Time} {d : Duration} (hd : 0 ≤ d) (h : d < timeSub t u) :
    u + d < t := by
  rcases lt_max_iff.1 h with h | h
  · exact absurd (hd.trans_lt h) (by norm_num)
  · exact lt_sub_iff_add_lt'.1 (lt_min_iff.1 h).2

theorem le_of_timeSub_le {t u : Time} {d : Duration} (h : timeSub t u ≤ d)
    (hd : d < 2 ^ 63 - 1) : t ≤ u + d := by
  by_contra hlt
  have hmin : d < min (2 ^ 63 - 1) (t - u) := lt_min hd (lt_sub_iff_add_lt'.2 (not_le.1 hlt))
  exact absurd (h.trans_lt hmin) (not_lt.2 (le_max_right _ _))

def authCleanupInterval : Duration := 5 * 10 ^ 9

def authHardCap : Nat := 65536

/-- January 1 of the year 1, the zero value of `time.Time`, counted from 1970. -/
def zeroTime : Time := -62135596800 * 10 ^ 9

structure WindowCounter where
  count : Int
  start : Time
  deriving DecidableEq

structure AuthLimiter where
  max : Int
  window : Duration
  seen : GoMap GoString WindowCounter
  lastCleanup : Time

def newAuthLimiter (max : Int) (window : Duration) : AuthLimiter := ⟨max, window, ∅, zeroTime⟩

/-- A call of `allow`: the source address and the clock reading. -/
abbrev Attempt := GoString × Time

namespace AuthLimiter

variable (a : AuthLimiter)

def maybeCleanup (now : Time) : AuthLimiter :=
  if timeSub now a.lastCleanup < authCleanupInterval then a
  else { a with
    lastCleanup := now
    seen := a.seen.filter fun _ w => !decide (a.window < timeSub now w.start) }

/-- The section of `allow` after the cleanup. -/
def tally (ip : GoString) (now : Time) : Bool × AuthLimiter :=
  match a.seen[ip]? with
  | some w =>
    if timeSub now w.start ≤ a.window then
      if a.max ≤ w.count then (false, a)
      else (true, { a with seen := a.seen.insert ip { w with count := w.count + 1 } })
    else (true, { a with seen := a.seen.insert ip ⟨1, now⟩ })
  | none =>
    if authHardCap ≤ a.seen.size then (false, a)
    else (true, { a with seen := a.seen.insert ip ⟨1, now⟩ })

def allow (ip : GoString) (now : Time) : Bool × AuthLimiter := (a.maybeCleanup now).tally ip now

/-- The verdicts on a sequence of calls. -/
def verdicts : AuthLimiter → List Attempt → List Bool
  | _, [] => []
  | a, (ip, now) :: calls => (a.allow ip now).1 :: (a.allow ip now).2.verdicts calls

/-- The limiter after a sequence of calls. -/
def after : AuthLimiter → List Attempt → AuthLimiter
  | a, [] => a
  | a, (ip, now) :: calls => (a.allow ip now).2.after calls

/-- The times at which calls from the address are admitted. -/
def admissions (ip : GoString) : AuthLimiter → List Attempt → List Time
  | _, [] => []
  | a, (k, now) :: calls =>
    if k = ip ∧ (a.allow k now).1 = true then now :: (a.allow k now).2.admissions ip calls
    else (a.allow k now).2.admissions ip calls

end AuthLimiter

/-- The limiter that keeps a window for every address for ever. -/
structure KeepingLimiter where
  max : Int
  window : Duration
  seen : GoMap GoString WindowCounter

namespace KeepingLimiter

variable (r : KeepingLimiter)

def allow (ip : GoString) (now : Time) : Bool × KeepingLimiter :=
  match r.seen[ip]? with
  | some w =>
    if timeSub now w.start ≤ r.window then
      if r.max ≤ w.count then (false, r)
      else (true, { r with seen := r.seen.insert ip { w with count := w.count + 1 } })
    else (true, { r with seen := r.seen.insert ip ⟨1, now⟩ })
  | none => (true, { r with seen := r.seen.insert ip ⟨1, now⟩ })

def verdicts : KeepingLimiter → List Attempt → List Bool
  | _, [] => []
  | r, (ip, now) :: calls => (r.allow ip now).1 :: (r.allow ip now).2.verdicts calls

end KeepingLimiter

/-- The calls come with clock readings that never go back, the first one not before `t`. -/
def ClockedFrom (t : Time) : List Attempt → Prop
  | [] => True
  | (_, now) :: calls => t ≤ now ∧ ClockedFrom now calls

theorem exists_clockedFrom {calls : List Attempt}
    (h : (calls.map Prod.snd).Pairwise (· ≤ ·)) : ∃ t, ClockedFrom t calls := by
  induction calls with
  | nil => exact ⟨0, trivial⟩
  | cons call calls ih =>
    obtain ⟨hle, hp⟩ := List.pairwise_cons.1 h
    refine ⟨call.2, le_rfl, ?_⟩
    obtain ⟨t, ht⟩ := ih hp
    cases calls with
    | nil => trivial
    | cons next calls => exact ⟨hle next.2 List.mem_cons_self, ht.2⟩

theorem length_filter_le_of_spread {xs : List Int} {n : Nat} {d : Int}
    (hs : xs.Pairwise (· ≤ ·))
    (h : ∀ i x y, xs[i]? = some x → xs[i + n]? = some y → x + d < y) (t : Int) :
    (xs.filter fun x => decide (t ≤ x ∧ x ≤ t + d)).length ≤ n := by
  by_contra hlt
  generalize hys : (xs.filter fun x => decide (t ≤ x ∧ x ≤ t + d)) = ys at hlt
  have hin : ∀ y ∈ ys, t ≤ y ∧ y ≤ t + d := by
    intro y hy
    rw [← hys] at hy
    exact of_decide_eq_true (List.mem_filter.1 hy).2
  have hsub : ys.Sublist xs := hys ▸ List.filter_sublist
  obtain ⟨f, hf⟩ := List.sublist_iff_exists_orderEmbedding_getElem?_eq.1 hsub
  obtain ⟨x, hx⟩ : ∃ x, ys[0]? = some x := ⟨_, List.getElem?_eq_getElem (by omega)⟩
  obtain ⟨z, hz⟩ : ∃ z, ys[n]? = some z := ⟨_, List.getElem?_eq_getElem (not_le.1 hlt)⟩
  have hxs := (hf 0).symm.trans hx
  have hzs := (hf n).symm.trans hz
  have hpos : f 0 + n ≤ f n := by
    have hmono := f.strictMono.add_le_nat n 0
    rwa [add_zero, add_comm] at hmono
  have hzlen := (List.getElem?_eq_some_iff.1 hzs).1
  obtain ⟨y, hy⟩ : ∃ y, xs[f 0 + n]? = some y :=
    ⟨_, List.getElem?_eq_getElem (hpos.trans_lt hzlen)⟩
  have hyz : y ≤ z := by
    obtain ⟨_, rfl⟩ := List.getElem?_eq_some_iff.1 hy
    obtain ⟨_, rfl⟩ := List.getElem?_eq_some_iff.1 hzs
    rcases hpos.eq_or_lt with he | hlt
    · simp only [he]
      exact le_rfl
    · exact List.pairwise_iff_getElem.1 hs _ _ _ _ hlt
  have hxy := h (f 0) x y hxs hy
  have hx' := (hin x (List.mem_of_getElem? hx)).1
  have hz' := (hin z (List.mem_of_getElem? hz)).2
  omega

namespace AuthLimiter

variable {a : AuthLimiter} {ip k : GoString} {now t : Time} {w : WindowCounter}
  {calls : List Attempt}

theorem maybeCleanup_max (a : AuthLimiter) (now : Time) :
    (a.maybeCleanup now).max = a.max ∧ (a.maybeCleanup now).window = a.window := by
  rw [maybeCleanup]
  split <;> exact ⟨rfl, rfl⟩

theorem maybeCleanup_get (a : AuthLimiter) (now : Time) (ip : GoString) :
    (a.maybeCleanup now).seen[ip]? = a.seen[ip]? ∨
      (a.maybeCleanup now).seen[ip]? = none ∧
        ∃ w, a.seen[ip]? = some w ∧ a.window < timeSub now w.start := by
  rw [maybeCleanup]
  split
  · exact .inl rfl
  · simp only [Std.ExtTreeMap.getElem?_filter']
    cases hw : a.seen[ip]? with
    | none => exact .inl rfl
    | some w =>
      by_cases hlt : a.window < timeSub now w.start
      · exact .inr ⟨by simp [Option.filter, hlt], w, rfl, hlt⟩
      · exact .inl (by simp [Option.filter, hlt])

theorem maybeCleanup_size (a : AuthLimiter) (now : Time) :
    (a.maybeCleanup now).seen.size ≤ a.seen.size := by
  rw [maybeCleanup]
  split
  · exact le_rfl
  · exact Std.ExtTreeMap.size_filter_le_size

/-- What `allow` does after its cleanup: refuse and change nothing, count on in the window of the
address, or open a new window for it. -/
inductive Admits (a : AuthLimiter) (ip : GoString) (now : Time) : Bool × AuthLimiter → Prop where
  | refuse : (∀ w, a.seen[ip]? = some w → timeSub now w.start ≤ a.window ∧ a.max ≤ w.count) →
      (a.seen[ip]? = none → authHardCap ≤ a.seen.size) → Admits a ip now (false, a)
  | count (w : WindowCounter) : a.seen[ip]? = some w → timeSub now w.start ≤ a.window →
      w.count < a.max → Admits a ip now
        (true, { a with seen := a.seen.insert ip { w with count := w.count + 1 } })
  | restart : (∀ w, a.seen[ip]? = some w → a.window < timeSub now w.start) →
      (a.seen[ip]? = none → a.seen.size < authHardCap) →
      Admits a ip now (true, { a with seen := a.seen.insert ip ⟨1, now⟩ })

theorem tally_cases (a : AuthLimiter) (ip : GoString) (now : Time) :
    Admits a ip now (a.tally ip now) := by
  rw [tally]
  split
  · rename_i w hw
    have hall : ∀ {P : WindowCounter → Prop}, P w → ∀ w', a.seen[ip]? = some w' → P w' := by
      intro P hP w' hw'
      rw [hw] at hw'
      cases hw'
      exact hP
    have hnone : ∀ {P : Prop}, a.seen[ip]? = none → P := by
      intro P hn
      rw [hw] at hn
      cases hn
    split
    · rename_i hle
      split
      · rename_i hmax
        exact .refuse (hall ⟨hle, hmax⟩) hnone
      · rename_i hmax
        exact .count w hw hle (not_le.1 hmax)
    · rename_i hlt
      exact .restart (hall (not_le.1 hlt)) hnone
  · rename_i hn
    have hsome : ∀ {P : WindowCounter → Prop}, ∀ w, a.seen[ip]? = some w → P w := by
      intro P w hw
      rw [hn] at hw
      cases hw
    split
    · rename_i hcap
      exact .refuse hsome fun _ => hcap
    · rename_i hcap
      exact .restart hsome fun _ => not_le.1 hcap

theorem allow_cases (a : AuthLimiter) (ip : GoString) (now : Time) :
    Admits (a.maybeCleanup now) ip now (a.allow ip now) :=
  (a.maybeCleanup now).tally_cases ip now

theorem allow_max (a : AuthLimiter) (ip : GoString) (now : Time) :
    (a.allow ip now).2.max = a.max ∧ (a.allow ip now).2.window = a.window := by
  have hc := a.maybeCleanup_max now
  generalize hr : a.allow ip now = r
  have h := a.allow_cases ip now
  rw [hr] at h
  cases h <;> exact hc

/-- No entry counts more than the limit. -/
def Counted (a : AuthLimiter) : Prop :=
  ∀ (ip : GoString) (w : WindowCounter), a.seen[ip]? = some w → 1 ≤ w.count ∧ w.count ≤ a.max

theorem Counted.maybeCleanup (h : a.Counted) (now : Time) : (a.maybeCleanup now).Counted := by
  intro ip w hw
  rw [(a.maybeCleanup_max now).1]
  rcases a.maybeCleanup_get now ip with he | ⟨he, _⟩
  · rw [he] at hw
    exact h ip w hw
  · rw [he] at hw
    cases hw

theorem Counted.allow (h : a.Counted) (hmax : 1 ≤ a.max) (ip : GoString) (now : Time) :
    (a.allow ip now).2.Counted := by
  have hc := h.maybeCleanup now
  have hm := (a.maybeCleanup_max now).1
  generalize hr : a.allow ip now = r
  have hcases := a.allow_cases ip now
  rw [hr] at hcases
  cases hcases with
  | refuse => exact hc
  | count w hw _ hlt =>
    intro k w' hw'
    rw [GoMap.get_insert] at hw'
    split at hw'
    · cases hw'
      exact ⟨(hc ip w hw).1.trans (Int.le_add_one le_rfl), hlt⟩
    · exact hc k w' hw'
  | restart =>
    intro k w' hw'
    rw [GoMap.get_insert] at hw'
    split at hw'
    · cases hw'
      exact ⟨le_rfl, hm ▸ hmax⟩
    · exact hc k w' hw'

theorem allow_size (h : a.seen.size ≤ authHardCap) (ip : GoString) (now : Time) :
    (a.allow ip now).2.seen.size ≤ authHardCap := by
  have hs := (a.maybeCleanup_size now).trans h
  have hin : ∀ w, (a.maybeCleanup now).seen[ip]? = some w →
      (a.maybeCleanup now).seen.contains ip = true := by
    intro w hw
    rw [Std.ExtTreeMap.contains_eq_isSome_getElem?, hw, Option.isSome_some]
  generalize hr : a.allow ip now = r
  have hcases := a.allow_cases ip now
  rw [hr] at hcases
  cases hcases with
  | refuse => exact hs
  | count w hw =>
    simp only [Std.ExtTreeMap.size_insert, hin w hw, if_true]
    exact hs
  | restart _ hcap =>
    simp only [Std.ExtTreeMap.size_insert]
    split
    · exact hs
    · rename_i hn
      apply hcap
      cases hw : (a.maybeCleanup now).seen[ip]? with
      | none => rfl
      | some w => exact absurd (hin w hw) hn

theorem after_size (h : a.seen.size ≤ authHardCap) (calls : List Attempt) :
    (a.after calls).seen.size ≤ authHardCap := by
  induction calls generalizing a with
  | nil => exact h
  | cons call calls ih => exact ih (allow_size h call.1 call.2)

/-- The last window of the address was opened at `s` and has admitted `c` calls; if it has been
evicted, it is over at time `t`. -/
def Window (a : AuthLimiter) (ip : GoString) (s : Time) (c : Int) (t : Time) : Prop :=
  a.seen[ip]? = some ⟨c, s⟩ ∨ a.seen[ip]? = none ∧ s + a.window < t ∧ a.window < 2 ^ 63 - 1

theorem timeSub_lt_max (t u : Time) : timeSub t u ≤ 2 ^ 63 - 1 :=
  max_le (by norm_num) (min_le_left _ _)

theorem Window.over {s : Time} {c : Int} (h : a.Window ip s c t) (hw : 0 ≤ a.window)
    (ht : t ≤ now) (hn : ∀ w, a.seen[ip]? = some w → a.window < timeSub now w.start) :
    s + a.window < now ∧ a.window < 2 ^ 63 - 1 := by
  rcases h with h | ⟨_, h, hmax⟩
  · have hlt := hn _ h
    exact ⟨lt_of_lt_timeSub hw hlt, hlt.trans_le (timeSub_lt_max _ _)⟩
  · exact ⟨h.trans_le ht, hmax⟩

theorem Window.maybeCleanup {s : Time} {c : Int} (h : a.Window ip s c t) (hw : 0 ≤ a.window)
    (ht : t ≤ now) : (a.maybeCleanup now).Window ip s c now := by
  rw [Window, (a.maybeCleanup_max now).2]
  rcases a.maybeCleanup_get now ip with he | ⟨he, w, hw', hlt⟩
  · rcases h with h | ⟨hn, h, hmax⟩
    · exact .inl (he.trans h)
    · exact .inr ⟨he.trans hn, h.trans_le ht, hmax⟩
  · refine .inr ⟨he, h.over hw ht ?_⟩
    intro w'' hw''
    rw [hw'] at hw''
    cases hw''
    exact hlt

theorem Window.allow {s : Time} {c : Int} (h : a.Window ip s c t) (hw : 0 ≤ a.window)
    (ht : t ≤ now) (k : GoString) :
    ¬ (k = ip ∧ (a.allow k now).1 = true) ∧ (a.allow k now).2.Window ip s c now ∨
    (k = ip ∧ (a.allow k now).1 = true) ∧
      ((a.allow k now).2.seen[ip]? = some ⟨c + 1, s⟩ ∧ c < a.max ∨
        (a.allow k now).2.seen[ip]? = some ⟨1, now⟩ ∧ s + a.window < now ∧
          a.window < 2 ^ 63 - 1) := by
  have hcl := h.maybeCleanup hw ht
  obtain ⟨hm, hwin⟩ := a.maybeCleanup_max now
  generalize hr : a.allow k now = r
  have hcases := a.allow_cases k now
  rw [hr] at hcases
  by_cases hk : k = ip
  · subst hk
    cases hcases with
    | refuse => exact .inl ⟨fun h => Bool.false_ne_true h.2, hcl⟩
    | count w hw' hle hlt =>
      refine .inr ⟨⟨rfl, rfl⟩, ?_⟩
      rcases hcl with he | ⟨he, _⟩
      · rw [hw'] at he
        cases he
        exact .inl ⟨by rw [GoMap.get_insert, if_pos rfl], hm ▸ hlt⟩
      · rw [hw'] at he
        cases he
    | restart hn =>
      refine .inr ⟨⟨rfl, rfl⟩, .inr ⟨by rw [GoMap.get_insert, if_pos rfl], ?_⟩⟩
      have ho := hcl.over (hwin ▸ hw) le_rfl hn
      rwa [hwin] at ho
  · refine .inl ⟨fun h => hk h.1, ?_⟩
    cases hcases with
    | refuse => exact hcl
    | count w =>
      simp only [Window, GoMap.get_insert, if_neg hk]
      exact hcl
    | restart =>
      simp only [Window, GoMap.get_insert, if_neg hk]
      exact hcl

theorem admissions_cons_of_not (h : ¬ (k = ip ∧ (a.allow k now).1 = true)) :
    a.admissions ip ((k, now) :: calls) = (a.allow k now).2.admissions ip calls := by
  rw [admissions, if_neg h]

theorem admissions_cons (h : k = ip ∧ (a.allow k now).1 = true) :
    a.admissions ip ((k, now) :: calls) = now :: (a.allow k now).2.admissions ip calls := by
  rw [admissions, if_pos h]

theorem le_of_mem_admissions (hc : ClockedFrom t calls) (hx : x ∈ a.admissions ip calls) :
    t ≤ x := by
  induction calls generalizing a t with
  | nil => cases hx
  | cons call calls ih =>
    obtain ⟨k, now⟩ := call
    obtain ⟨ht, hc⟩ := hc
    by_cases hk : k = ip ∧ (a.allow k now).1 = true
    · rw [admissions_cons hk] at hx
      rcases List.mem_cons.1 hx with rfl | hx
      · exact ht
      · exact ht.trans (ih hc hx)
    · rw [admissions_cons_of_not hk] at hx
      exact ht.trans (ih hc hx)

theorem admissions_pairwise (hc : ClockedFrom t calls) :
    (a.admissions ip calls).Pairwise (· ≤ ·) := by
  induction calls generalizing a t with
  | nil => exact List.Pairwise.nil
  | cons call calls ih =>
    obtain ⟨k, now⟩ := call
    by_cases hk : k = ip ∧ (a.allow k now).1 = true
    · rw [admissions_cons hk]
      exact List.Pairwise.cons (fun x hx => le_of_mem_admissions hc.2 hx) (ih hc.2)
    · rw [admissions_cons_of_not hk]
      exact ih hc.2

theorem late_of_window {s : Time} {c : Int} (hw : 0 ≤ a.window) (hmax : 1 ≤ a.max)
    (hcl : ClockedFrom t calls) (h : a.Window ip s c t) (hc : c ≤ a.max) (n i : Nat)
    (hi : a.max - c + n * a.max ≤ i) (hx : (a.admissions ip calls)[i]? = some x) :
    s + (n + 1) * a.window < x ∧ a.window < 2 ^ 63 - 1 := by
  induction calls generalizing a s c t n i with
  | nil => cases hx
  | cons call calls ih =>
    obtain ⟨k, now⟩ := call
    obtain ⟨ht, hcl⟩ := hcl
    obtain ⟨hm, hwin⟩ := a.allow_max k now
    have ih' : ∀ (s' : Time) (c' : Int), (a.allow k now).2.Window ip s' c' now → c' ≤ a.max →
        ∀ n' j : Nat, a.max - c' + n' * a.max ≤ j →
        ((a.allow k now).2.admissions ip calls)[j]? = some x →
        s' + (n' + 1) * a.window < x ∧ a.window < 2 ^ 63 - 1 := by
      intro s' c' h' hc' n' j hj hx'
      have hlate := ih (hwin ▸ hw) (hm ▸ hmax) hcl h' (hm ▸ hc') n' j (hm ▸ hj) hx'
      rwa [hwin] at hlate
    rcases h.allow hw ht k with ⟨hno, h'⟩ | ⟨hk, ⟨hseen, hlt⟩ | ⟨hseen, hover, hsat⟩⟩
    · rw [admissions_cons_of_not hno] at hx
      exact ih' s c h' hc n i hi hx
    · rw [admissions_cons hk] at hx
      have hn : 0 ≤ (n : Int) * a.max := mul_nonneg (Int.natCast_nonneg n) (by omega)
      cases i with
      | zero => omega
      | succ j => exact ih' s (c + 1) (.inl hseen) hlt n j (by omega) hx
    · rw [admissions_cons hk] at hx
      cases n with
      | zero =>
        rw [Nat.cast_zero, zero_add, one_mul]
        refine ⟨hover.trans_le ?_, hsat⟩
        rcases List.mem_cons.1 (List.mem_of_getElem? hx) with rfl | hx
        · exact le_rfl
        · exact le_of_mem_admissions hcl hx
      | succ n =>
        have hn : 0 ≤ (n : Int) * a.max := mul_nonneg (Int.natCast_nonneg n) (by omega)
        rw [Nat.cast_succ, add_mul, one_mul] at hi
        cases i with
        | zero => omega
        | succ j =>
          have hlate := ih' now 1 (.inl hseen) hmax n j (by omega) hx
          refine ⟨?_, hsat⟩
          calc s + ((n + 1 : Nat) + 1) * a.window = s + a.window + (n + 1) * a.window := by
                push_cast
                ring
            _ < now + (n + 1) * a.window := by gcongr
            _ < x := hlate.1

theorem seen_of_allow (hw : 0 ≤ a.window) (h : (a.allow ip now).1 = true) :
    ∃ w, (a.allow ip now).2.seen[ip]? = some w ∧ timeSub now w.start ≤ a.window := by
  obtain ⟨_, hwin⟩ := a.maybeCleanup_max now
  generalize hr : a.allow ip now = r at h
  have hcases := a.allow_cases ip now
  rw [hr] at hcases
  cases hcases with
  | refuse => cases h
  | count w _ hle =>
    exact ⟨{ w with count := w.count + 1 }, by rw [GoMap.get_insert, if_pos rfl], hwin ▸ hle⟩
  | restart =>
    refine ⟨⟨1, now⟩, by rw [GoMap.get_insert, if_pos rfl], ?_⟩
    rw [timeSub, sub_self]
    exact max_le ((by norm_num : -2 ^ 63 ≤ (0 : Int)).trans hw) ((min_le_right _ _).trans hw)

theorem admissions_spread (hw : 0 ≤ a.window) (hmax : 1 ≤ a.max) (ha : a.Counted)
    (hcl : ClockedFrom t calls) (i : Nat) (hx : (a.admissions ip calls)[i]? = some x)
    (hy : (a.admissions ip calls)[i + 2 * a.max.toNat]? = some y) : x + a.window < y := by
  induction calls generalizing a t i with
  | nil => cases hx
  | cons call calls ih =>
    obtain ⟨k, now⟩ := call
    obtain ⟨ht, hcl⟩ := hcl
    obtain ⟨hm, hwin⟩ := a.allow_max k now
    have ha' := ha.allow hmax k now
    have ih' : ∀ j : Nat, ((a.allow k now).2.admissions ip calls)[j]? = some x →
        ((a.allow k now).2.admissions ip calls)[j + 2 * a.max.toNat]? = some y →
        x + a.window < y := by
      intro j hx' hy'
      have hs := ih (hwin ▸ hw) (hm ▸ hmax) ha' hcl j hx' (hm ▸ hy')
      rwa [hwin] at hs
    by_cases hk : k = ip ∧ (a.allow k now).1 = true
    · rw [admissions_cons hk] at hx hy
      cases i with
      | succ j =>
        rw [Nat.succ_add_eq_add_succ] at hy
        exact ih' j hx hy
      | zero =>
        have hnow : now = x := Option.some.inj hx
        subst hnow
        obtain ⟨rfl, hok⟩ := hk
        obtain ⟨w, hseen, hle⟩ := seen_of_allow hw hok
        obtain ⟨hone, hcount⟩ := ha' k w hseen
        rw [hm] at hcount
        obtain ⟨j, hj⟩ : ∃ j, 2 * a.max.toNat = j + 1 := ⟨2 * a.max.toNat - 1, by omega⟩
        rw [zero_add, hj, List.getElem?_cons_succ] at hy
        obtain ⟨hlate, hsat⟩ := late_of_window (hwin ▸ hw) (hm ▸ hmax) hcl
          (Or.inl hseen : (a.allow k now).2.Window k w.start w.count now) (hm ▸ hcount) 1 j
          (by rw [hm]; push_cast; omega) hy
        rw [hwin] at hlate hsat
        calc now + a.window ≤ w.start + a.window + a.window := by
              gcongr
              exact le_of_timeSub_le hle hsat
          _ = w.start + ((1 : Nat) + 1) * a.window := by
              push_cast
              ring
          _ < y := hlate
    · rw [admissions_cons_of_not hk] at hx hy
      exact ih' i hx hy

theorem counted_new (limit : Int) (window : Duration) : (newAuthLimiter limit window).Counted := by
  intro ip w hw
  rw [newAuthLimiter, GoMap.get_empty] at hw
  cases hw

/-- The map stays within the hard cap, and no address gets more than twice the limit admitted
within a window, wherever the interval starts. -/
theorem allow_bounded (limit : Int) (window : Duration) (hmax : 1 ≤ limit) (hw : 0 < window)
    (calls : List Attempt) (hc : (calls.map Prod.snd).Pairwise (· ≤ ·)) :
    (∀ n, ((newAuthLimiter limit window).after (calls.take n)).seen.size ≤ authHardCap) ∧
    ∀ ip,
      (∀ i x y, ((newAuthLimiter limit window).admissions ip calls)[i]? = some x →
        ((newAuthLimiter limit window).admissions ip calls)[i + 2 * limit.toNat]? = some y →
        window < y - x) ∧
      ∀ t, (((newAuthLimiter limit window).admissions ip calls).filter
        fun x => decide (t ≤ x ∧ x ≤ t + window)).length ≤ 2 * limit.toNat := by
  obtain ⟨t₀, hcl⟩ := exists_clockedFrom hc
  constructor
  · intro n
    exact after_size (Nat.zero_le _) _
  · intro ip
    have hspread : ∀ i x y, ((newAuthLimiter limit window).admissions ip calls)[i]? = some x →
        ((newAuthLimiter limit window).admissions ip calls)[i + 2 * limit.toNat]? = some y →
        x + window < y := by
      intro i x y hx hy
      exact admissions_spread (a := newAuthLimiter limit window) hw.le hmax (counted_new _ _) hcl
        i hx hy
    constructor
    · intro i x y hx hy
      exact lt_sub_iff_add_lt'.2 (hspread i x y hx hy)
    · intro t
      exact length_filter_le_of_spread (admissions_pairwise hcl) hspread t

/-- With a limit of two, five calls of one address pass while another one comes in between. -/
theorem allow_bounded_five :
    (newAuthLimiter 2 10).admissions (lit "a") [(lit "a", 0), (lit "a", 10), (lit "a", 10),
      (lit "b", 10), (lit "a", 11), (lit "a", 11), (lit "a", 21), (lit "a", 22)] =
      [0, 10, 11, 11, 22] ∧ (10 : Int) < 22 - 0 := by
  have hadm : (newAuthLimiter 2 10).admissions (lit "a") [(lit "a", 0), (lit "a", 10),
      (lit "a", 10), (lit "b", 10), (lit "a", 11), (lit "a", 11), (lit "a", 21), (lit "a", 22)] =
      [0, 10, 11, 11, 22] := by decide
  obtain ⟨_, hip⟩ := allow_bounded 2 10 (by decide) (by decide)
    [(lit "a", 0), (lit "a", 10), (lit "a", 10), (lit "b", 10), (lit "a", 11), (lit "a", 11),
      (lit "a", 21), (lit "a", 22)] (by decide)
  refine ⟨hadm, (hip (lit "a")).1 0 0 22 ?_ ?_⟩
  · rw [hadm]
    rfl
  · rw [hadm]
    rfl

/-- The limiter knows of every address what the other one knows, or has forgotten a window that
is over at time `t`. -/
structure Shadows (a : AuthLimiter) (r : KeepingLimiter) (t : Time) : Prop where
  max : a.max = r.max
  window : a.window = r.window
  entry : ∀ ip : GoString, a.seen[ip]? = r.seen[ip]? ∨
    a.seen[ip]? = none ∧ ∃ w, r.seen[ip]? = some w ∧ r.window < timeSub t w.start

variable {r : KeepingLimiter}

theorem Shadows.maybeCleanup (h : a.Shadows r t) (ht : t ≤ now) :
    (a.maybeCleanup now).Shadows r now := by
  obtain ⟨hm, hwin⟩ := a.maybeCleanup_max now
  refine ⟨hm.trans h.max, hwin.trans h.window, ?_⟩
  intro ip
  rcases h.entry ip with he | ⟨hn, w, hw, hlt⟩
  · rcases a.maybeCleanup_get now ip with hc | ⟨hc, w, hw, hlt⟩
    · exact .inl (hc.trans he)
    · exact .inr ⟨hc, w, he.symm.trans hw, h.window ▸ hlt⟩
  · refine .inr ⟨?_, w, hw, hlt.trans_le (timeSub_mono ht w.start)⟩
    rcases a.maybeCleanup_get now ip with hc | ⟨hc, _⟩
    · exact hc.trans hn
    · exact hc

theorem Shadows.insert (h : a.Shadows r t) (ip : GoString) (w : WindowCounter) :
    ({ a with seen := a.seen.insert ip w } : AuthLimiter).Shadows
      { r with seen := r.seen.insert ip w } t := by
  refine ⟨h.max, h.window, ?_⟩
  intro k
  simp only [GoMap.get_insert]
  by_cases hk : ip = k
  · exact .inl (by rw [if_pos hk, if_pos hk])
  · rw [if_neg hk, if_neg hk]
    exact h.entry k

theorem Shadows.tally (h : a.Shadows r now) (hcap : a.seen.size < authHardCap) (ip : GoString) :
    (a.tally ip now).1 = (r.allow ip now).1 ∧
      (a.tally ip now).2.Shadows (r.allow ip now).2 now := by
  obtain ⟨limit, window, seen⟩ := r
  obtain rfl : a.max = limit := h.max
  obtain rfl : a.window = window := h.window
  rw [AuthLimiter.tally, KeepingLimiter.allow]
  rcases h.entry ip with he | ⟨hn, w, hw, hlt⟩
  · rw [he]
    cases seen[ip]? with
    | none =>
      simp only [if_neg (not_le.2 hcap), true_and]
      exact h.insert ip _
    | some w =>
      simp only
      split
      · split
        · exact ⟨rfl, h⟩
        · exact ⟨rfl, h.insert ip _⟩
      · exact ⟨rfl, h.insert ip _⟩
  · simp only at hw hlt
    simp only [hn, hw, if_neg (not_le.2 hcap), if_neg (not_le.2 hlt), true_and]
    exact h.insert ip _

theorem Shadows.allow (h : a.Shadows r t) (ht : t ≤ now) (hcap : a.seen.size < authHardCap)
    (ip : GoString) : (a.allow ip now).1 = (r.allow ip now).1 ∧
      (a.allow ip now).2.Shadows (r.allow ip now).2 now :=
  (h.maybeCleanup ht).tally ((a.maybeCleanup_size now).trans_lt hcap) ip

theorem Shadows.verdicts (h : a.Shadows r t) (hcl : ClockedFrom t calls)
    (hcap : ∀ n < calls.length, (a.after (calls.take n)).seen.size < authHardCap) :
    a.verdicts calls = r.verdicts calls := by
  induction calls generalizing a r t with
  | nil => rfl
  | cons call calls ih =>
    obtain ⟨ip, now⟩ := call
    obtain ⟨hv, hs⟩ := h.allow hcl.1 (hcap 0 (Nat.succ_pos _)) ip
    rw [AuthLimiter.verdicts, KeepingLimiter.verdicts, hv, ih hs hcl.2]
    intro n hn
    exact hcap (n + 1) (Nat.succ_lt_succ hn)

/-- As long as the map does not fill up, evicting windows changes no verdict. -/
theorem verdicts_eq_keeping (limit : Int) (window : Duration) (calls : List Attempt)
    (hc : (calls.map Prod.snd).Pairwise (· ≤ ·))
    (hcap : ∀ n < calls.length,
      ((newAuthLimiter limit window).after (calls.take n)).seen.size < authHardCap) :
    (newAuthLimiter limit window).verdicts calls =
      (KeepingLimiter.mk limit window ∅).verdicts calls := by
  obtain ⟨t, hcl⟩ := exists_clockedFrom hc
  have hs : (newAuthLimiter limit window).Shadows ⟨limit, window, ∅⟩ t :=
    ⟨rfl, rfl, fun _ => .inl rfl⟩
  exact hs.verdicts hcl hcap

/-- The window of the first address is evicted by a call of the second one. -/
theorem verdicts_eq_keeping_evicted :
    ((newAuthLimiter 1 10).after [(lit "a", 0), (lit "b", 5 * 10 ^ 9)]).seen[lit "a"]? = none ∧
      (newAuthLimiter 1 10).verdicts [(lit "a", 0), (lit "b", 5 * 10 ^ 9), (lit "a", 5 * 10 ^ 9)] =
        (KeepingLimiter.mk 1 10 ∅).verdicts
          [(lit "a", 0), (lit "b", 5 * 10 ^ 9), (lit "a", 5 * 10 ^ 9)] :=
  ⟨by decide +kernel, verdicts_eq_keeping 1 10 _ (by decide) (by decide +kernel)⟩

end AuthLimiter

end HyruleProxy
