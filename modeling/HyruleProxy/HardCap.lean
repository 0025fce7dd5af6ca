import HyruleProxy.AuthLimiter
import HyruleProxy.NetIPText

namespace HyruleProxy
set_option autoImplicit true

namespace AuthLimiter

variable {a : AuthLimiter} {ip k : GoString} {now t : Time} {w : WindowCounter}

/-- The comment at the hard cap: an unknown address is refused only by a map that is full of
windows that are not over. -/
def RefusesWhenLive (a : AuthLimiter) (ip : GoString) (now : Time) : Prop :=
  a.seen[ip]? = none → (a.allow ip now).1 = false →
    (a.allow ip now).2.seen.size = authHardCap ∧
      ∀ (k : GoString) (w : WindowCounter), (a.allow ip now).2.seen[k]? = some w →
        timeSub now w.start ≤ a.window

/-- The map is full, one of its windows is over, and the cleanup is not due. -/
structure Clogged (a : AuthLimiter) (ip : GoString) (now : Time) : Prop where
  absent : a.seen[ip]? = none
  full : authHardCap ≤ a.seen.size
  stale : ∃ (k : GoString) (w : WindowCounter), a.seen[k]? = some w ∧
    a.window < timeSub now w.start
  skipped : timeSub now a.lastCleanup < authCleanupInterval

theorem maybeCleanup_of_skipped (h : timeSub now a.lastCleanup < authCleanupInterval) :
    a.maybeCleanup now = a := by
  rw [maybeCleanup, if_pos h]

theorem maybeCleanup_live (h : ¬timeSub now a.lastCleanup < authCleanupInterval)
    (hw : (a.maybeCleanup now).seen[k]? = some w) : timeSub now w.start ≤ a.window := by
  rw [maybeCleanup, if_neg h] at hw
  simp only [Std.ExtTreeMap.getElem?_filter'] at hw
  have hp := (Option.filter_eq_some_iff.1 hw).2
  simpa using hp

theorem tally_of_absent (hn : a.seen[ip]? = none) (h : (a.tally ip now).1 = false) :
    authHardCap ≤ a.seen.size ∧ (a.tally ip now).2 = a := by
  rw [tally, hn] at h ⊢
  simp only at h ⊢
  split at h
  · rename_i hcap
    rw [if_pos hcap]
    exact ⟨hcap, rfl⟩
  · cases h

theorem tally_of_full (hn : a.seen[ip]? = none) (hcap : authHardCap ≤ a.seen.size)
    (now : Time) : a.tally ip now = (false, a) := by
  rw [tally, hn]
  simp only
  rw [if_pos hcap]

theorem maybeCleanup_absent (hn : a.seen[ip]? = none) (now : Time) :
    (a.maybeCleanup now).seen[ip]? = none := by
  rcases a.maybeCleanup_get now ip with he | ⟨he, _⟩
  · exact he.trans hn
  · exact he

theorem Clogged.not_refusesWhenLive (h : a.Clogged ip now) : ¬a.RefusesWhenLive ip now := by
  intro hr
  obtain ⟨k, w, hw, hlt⟩ := h.stale
  have ha : a.allow ip now = (false, a) := by
    rw [allow, maybeCleanup_of_skipped h.skipped, tally_of_full h.absent h.full]
  obtain ⟨_, hlive⟩ := hr h.absent (by rw [ha])
  rw [ha] at hlive
  exact absurd (hlive k w hw) (not_le.2 hlt)

theorem refusesWhenLive_of_not_clogged (hcap : a.seen.size ≤ authHardCap)
    (h : ¬a.Clogged ip now) : a.RefusesWhenLive ip now := by
  intro hn hf
  obtain ⟨hfull, hsame⟩ := tally_of_absent (maybeCleanup_absent hn now) hf
  rw [allow, hsame]
  refine ⟨le_antisymm ((a.maybeCleanup_size now).trans hcap) hfull, ?_⟩
  intro k w hw
  by_cases hs : timeSub now a.lastCleanup < authCleanupInterval
  · rw [maybeCleanup_of_skipped hs] at hfull hw
    apply not_lt.1
    intro hlt
    exact h ⟨hn, hfull, ⟨k, w, hw, hlt⟩, hs⟩
  · exact maybeCleanup_live hs hw

/-- The comment at the hard cap is right about a call exactly when the call does not find the
map clogged. -/
theorem refusesWhenLive_iff_not_clogged (limit : Int) (window : Duration) (calls : List Attempt)
    (ip : GoString) (now : Time) :
    ((newAuthLimiter limit window).after calls).RefusesWhenLive ip now ↔
      ¬((newAuthLimiter limit window).after calls).Clogged ip now := by
  constructor
  · intro h hc
    exact hc.not_refusesWhenLive h
  · intro h
    exact refusesWhenLive_of_not_clogged (after_size (Nat.zero_le _) calls) h

theorem after_append (a : AuthLimiter) (calls calls' : List Attempt) :
    a.after (calls ++ calls') = (a.after calls).after calls' := by
  induction calls generalizing a with
  | nil => rfl
  | cons call calls ih => exact ih _

/-- New addresses have joined the map at time `t`. -/
structure Joined (a a' : AuthLimiter) (ips : List GoString) (t : Time) : Prop where
  max : a'.max = a.max
  window : a'.window = a.window
  lastCleanup : a'.lastCleanup = t
  size : a'.seen.size = a.seen.size + ips.length
  get : ∀ k : GoString, a'.seen[k]? = if k ∈ ips then some ⟨1, t⟩ else a.seen[k]?

theorem allow_fresh (hn : a.seen[ip]? = none) (hroom : a.seen.size < authHardCap)
    (ht : a.lastCleanup = t) :
    (a.allow ip t).2 = { a with seen := a.seen.insert ip ⟨1, t⟩ } := by
  have hskip : timeSub t a.lastCleanup < authCleanupInterval := by
    rw [ht, timeSub, sub_self]
    decide
  rw [allow, maybeCleanup_of_skipped hskip, tally, hn]
  simp only
  rw [if_neg (not_le.2 hroom)]

theorem size_insert_fresh (hn : a.seen[ip]? = none) (w : WindowCounter) :
    (a.seen.insert ip w).size = a.seen.size + 1 := by
  rw [Std.ExtTreeMap.size_insert, if_neg]
  rw [Std.ExtTreeMap.contains_eq_isSome_getElem?, hn]
  exact Bool.false_ne_true

theorem joined_after (ips : List GoString) (hn : ips.Nodup)
    (hfresh : ∀ ip ∈ ips, a.seen[ip]? = none) (hroom : a.seen.size + ips.length ≤ authHardCap)
    (ht : a.lastCleanup = t) : a.Joined (a.after (ips.map fun ip => (ip, t))) ips t := by
  induction ips generalizing a with
  | nil => exact ⟨rfl, rfl, ht, rfl, fun k => by simp [after]⟩
  | cons ip ips ih =>
    obtain ⟨hip, hn⟩ := List.nodup_cons.1 hn
    rw [List.length_cons] at hroom
    have hnone := hfresh ip List.mem_cons_self
    have hsize := size_insert_fresh hnone ⟨1, t⟩
    have hlater : ∀ k ∈ ips, (a.seen.insert ip ⟨1, t⟩)[k]? = none := by
      intro k hk
      rw [GoMap.get_insert, if_neg]
      · exact hfresh k (List.mem_cons_of_mem ip hk)
      · rintro rfl
        exact hip hk
    have hrest := @ih { a with seen := a.seen.insert ip ⟨1, t⟩ } hn hlater
      (by rw [hsize]; omega) ht
    rw [List.map_cons, after, allow_fresh hnone (by omega) ht]
    refine ⟨hrest.max, hrest.window, hrest.lastCleanup, ?_, ?_⟩
    · rw [hrest.size, hsize, List.length_cons]
      omega
    · intro k
      rw [hrest.get, GoMap.get_insert]
      by_cases hk : k ∈ ips
      · rw [if_pos hk, if_pos (List.mem_cons_of_mem ip hk)]
      · rw [if_neg hk]
        by_cases he : ip = k
        · subst he
          rw [if_pos rfl, if_pos List.mem_cons_self]
        · rw [if_neg he, if_neg]
          rw [List.mem_cons, not_or]
          exact ⟨Ne.symm he, hk⟩

theorem after_new (limit : Int) (window : Duration) (call : Attempt) (calls : List Attempt)
    (ht : authCleanupInterval ≤ timeSub call.2 zeroTime) :
    (newAuthLimiter limit window).after (call :: calls) =
      (⟨limit, window, ∅, call.2⟩ : AuthLimiter).after (call :: calls) := by
  have hfirst : (newAuthLimiter limit window).maybeCleanup call.2 =
      ⟨limit, window, ∅, call.2⟩ := by
    rw [maybeCleanup]
    exact if_neg (not_lt.2 ht)
  have hagain : (⟨limit, window, ∅, call.2⟩ : AuthLimiter).maybeCleanup call.2 =
      ⟨limit, window, ∅, call.2⟩ := by
    apply maybeCleanup_of_skipped
    rw [timeSub, sub_self]
    decide
  rw [after, after, allow, allow, hfirst, hagain]

theorem joined_new (limit : Int) (window : Duration) (ips : List GoString) (hne : ips ≠ [])
    (hn : ips.Nodup) (hlen : ips.length ≤ authHardCap)
    (ht : authCleanupInterval ≤ timeSub t zeroTime) :
    (⟨limit, window, ∅, t⟩ : AuthLimiter).Joined
      ((newAuthLimiter limit window).after (ips.map fun ip => (ip, t))) ips t := by
  have hjoin := joined_after (a := ⟨limit, window, ∅, t⟩) ips hn (fun ip _ => GoMap.get_empty ip)
    ((Nat.zero_add _).trans_le hlen) rfl
  cases ips with
  | nil => exact absurd rfl hne
  | cons ip ips =>
    rw [List.map_cons] at hjoin ⊢
    rw [after_new limit window (ip, t) _ ht]
    exact hjoin

theorem maybeCleanup_of_live (h : ¬timeSub now a.lastCleanup < authCleanupInterval)
    (hlive : ∀ (k : GoString) (w : WindowCounter), a.seen[k]? = some w →
      timeSub now w.start ≤ a.window) :
    a.maybeCleanup now = { a with lastCleanup := now } := by
  have hseen : (a.maybeCleanup now).seen = a.seen := by
    apply Std.ExtTreeMap.ext_getElem?
    intro k
    rcases a.maybeCleanup_get now k with he | ⟨_, w, hw, hlt⟩
    · exact he
    · exact absurd (hlive k w hw) (not_le.2 hlt)
  rw [maybeCleanup, if_neg h] at hseen ⊢
  simp only at hseen
  rw [hseen]

end AuthLimiter

/-- The addresses 10.0.0.0 to 10.0.255.255. -/
def floodAddr (i : Nat) : GoString :=
  (Addr.ip4 ⟨[10, 0, (i / 256).toUInt8, (i % 256).toUInt8], rfl⟩).string

def floodTime : Time := 10 ^ 9

/-- All of them come at once, and one comes again when 30 seconds are over. -/
def floodCalls : List Attempt :=
  ((List.range authHardCap).map floodAddr).map (fun ip => (ip, floodTime)) ++
    [(floodAddr 0, floodTime + 30 * 10 ^ 9)]

theorem parseAddr_floodAddr (i : Nat) : parseAddr (floodAddr i) =
    some (.ip4 ⟨[10, 0, (i / 256).toUInt8, (i % 256).toUInt8], rfl⟩) := by
  apply parseAddr_string
  intro h
  cases h

theorem floodAddr_inj (hi : i < authHardCap) (hj : j < authHardCap)
    (h : floodAddr i = floodAddr j) : i = j := by
  have hp := congrArg parseAddr h
  rw [parseAddr_floodAddr, parseAddr_floodAddr] at hp
  simp only [Option.some.injEq, Addr.ip4.injEq, Subtype.mk.injEq, List.cons.injEq, and_true,
    true_and] at hp
  have hhi := congrArg UInt8.toNat hp.1
  have hlo := congrArg UInt8.toNat hp.2
  simp only [authHardCap, UInt8.toNat_ofNat', Nat.toUInt8] at hi hj hhi hlo
  omega

theorem floodAddr_ne (i : Nat) : floodAddr i ≠ lit "10.1.0.0" := by
  intro h
  have hp := congrArg parseAddr h
  have ha : parseAddr (lit "10.1.0.0") = some (.ip4 ⟨[10, 1, 0, 0], rfl⟩) := by decide
  rw [parseAddr_floodAddr, ha] at hp
  simp at hp

namespace AuthLimiter

theorem joined_flood : (⟨5, 30 * 10 ^ 9, ∅, floodTime⟩ : AuthLimiter).Joined
    ((newAuthLimiter 5 (30 * 10 ^ 9)).after
      (((List.range authHardCap).map floodAddr).map fun ip => (ip, floodTime)))
    ((List.range authHardCap).map floodAddr) floodTime := by
  apply joined_new
  · intro h
    have hlen := congrArg List.length h
    simp [authHardCap] at hlen
  · apply List.Nodup.map_on _ List.nodup_range
    intro i hi j hj h
    exact floodAddr_inj (List.mem_range.1 hi) (List.mem_range.1 hj) h
  · simp
  · decide

/-- Five attempts in 30 seconds: when a full map has been joined at one time and one of its
addresses comes again 30 seconds later, then a nanosecond after that all windows are over and no
cleanup is due. -/
theorem Joined.clogged {ips : List GoString} {other : GoString}
    (h : (⟨5, 30 * 10 ^ 9, ∅, floodTime⟩ : AuthLimiter).Joined a ips floodTime) (hip : ip ∈ ips)
    (ho : other ∉ ips) (hlen : ips.length = authHardCap) :
    (a.after [(ip, floodTime + 30 * 10 ^ 9)]).Clogged other (floodTime + 30 * 10 ^ 9 + 1) := by
  have hseen : a.seen[ip]? = some ⟨1, floodTime⟩ := by
    rw [h.get, if_pos hip]
  have hlive : ∀ (k : GoString) (w : WindowCounter), a.seen[k]? = some w →
      timeSub (floodTime + 30 * 10 ^ 9) w.start ≤ a.window := by
    intro k w hw
    rw [h.get] at hw
    split at hw
    · cases hw
      rw [h.window]
      decide
    · rw [GoMap.get_empty] at hw
      cases hw
  have hclean : a.maybeCleanup (floodTime + 30 * 10 ^ 9) =
      { a with lastCleanup := floodTime + 30 * 10 ^ 9 } := by
    apply maybeCleanup_of_live _ hlive
    rw [h.lastCleanup]
    decide
  have hallow : a.after [(ip, floodTime + 30 * 10 ^ 9)] =
      { a with
        lastCleanup := floodTime + 30 * 10 ^ 9
        seen := a.seen.insert ip ⟨2, floodTime⟩ } := by
    have hcount : ¬a.max ≤ 1 := by
      rw [h.max]
      decide
    rw [after, after, allow, hclean, tally]
    simp only [hseen]
    rw [if_pos (hlive _ _ hseen), if_neg hcount]
    rfl
  rw [hallow]
  refine ⟨?_, ?_, ⟨ip, ⟨2, floodTime⟩, ?_, ?_⟩, ?_⟩
  · rw [GoMap.get_insert, if_neg, h.get, if_neg ho, GoMap.get_empty]
    rintro rfl
    exact ho hip
  · simp only [Std.ExtTreeMap.size_insert, Std.ExtTreeMap.contains_eq_isSome_getElem?, hseen,
      Option.isSome_some, if_true, h.size, hlen]
    exact Nat.le_add_left _ _
  · rw [GoMap.get_insert, if_pos rfl]
  · rw [h.window]
    decide
  · change timeSub (floodTime + 30 * 10 ^ 9 + 1) (floodTime + 30 * 10 ^ 9) < authCleanupInterval
    decide

theorem clogged_flood :
    ((newAuthLimiter 5 (30 * 10 ^ 9)).after floodCalls).Clogged (lit "10.1.0.0")
      (floodTime + 30 * 10 ^ 9 + 1) := by
  rw [floodCalls, after_append]
  have hpos : 0 < authHardCap := by decide
  refine joined_flood.clogged (List.mem_map.2 ⟨0, List.mem_range.2 hpos, rfl⟩) ?_ (by simp)
  intro hm
  obtain ⟨i, _, hi⟩ := List.mem_map.1 hm
  exact floodAddr_ne i hi

/-- Clock readings that never go back, and a refusal by a map full of windows that are over. -/
theorem refused_by_stale_windows :
    ((floodCalls ++ [(lit "10.1.0.0", floodTime + 30 * 10 ^ 9 + 1)]).map Prod.snd).Pairwise
      (· ≤ ·) ∧
    ¬((newAuthLimiter 5 (30 * 10 ^ 9)).after floodCalls).RefusesWhenLive (lit "10.1.0.0")
      (floodTime + 30 * 10 ^ 9 + 1) := by
  refine ⟨?_, clogged_flood.not_refusesWhenLive⟩
  have htimes : (floodCalls ++ [(lit "10.1.0.0", floodTime + 30 * 10 ^ 9 + 1)]).map Prod.snd =
      List.replicate authHardCap floodTime ++
        [floodTime + 30 * 10 ^ 9, floodTime + 30 * 10 ^ 9 + 1] := by
    simp [floodCalls, Function.comp_def]
  rw [htimes, List.pairwise_append]
  refine ⟨List.pairwise_replicate_of_refl, by decide, ?_⟩
  intro x hx y hy
  rw [List.eq_of_mem_replicate hx]
  revert y
  decide

end AuthLimiter

end HyruleProxy
