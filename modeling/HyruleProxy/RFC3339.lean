import Mathlib.Data.List.DropRight
import Mathlib.Tactic

namespace HyruleProxy
set_option autoImplicit true

/-- A date of the Gregorian calendar, which is extended to all years. -/
structure Date where
  year : Int
  month : Nat
  day : Nat
  deriving DecidableEq

namespace Date

def isLeap (y : Int) : Bool := y % 4 = 0 && (y % 100 ≠ 0 || y % 400 = 0)

def leapDay (y : Int) : Nat := if isLeap y then 1 else 0

def daysIn (y : Int) (m : Nat) : Nat :=
  if m = 2 then 28 + leapDay y else if m = 4 ∨ m = 6 ∨ m = 9 ∨ m = 11 then 30 else 31

/-- The days of a common year before each month, and of the whole year. -/
def daysBefore : List Nat := [0, 31, 59, 90, 120, 151, 181, 212, 243, 273, 304, 334, 365]

/-- The days of the year before its month `m + 1`. -/
def daysBeforeMonth (y : Int) (m : Nat) : Nat :=
  daysBefore.getD m 0 + if 2 ≤ m then leapDay y else 0

/-- The days from the first of January of year 1 to that of year `y + 1`. -/
def daysOfYears (y : Int) : Int := 365 * y + y / 4 - y / 100 + y / 400

/-- The number of the day, counted from the first of January 1970. -/
def toDays (d : Date) : Int :=
  daysOfYears (d.year - 1) + daysBeforeMonth d.year (d.month - 1) + d.day - 719163

/-- The years before a day that is counted from the first of January of year 1, and the days of
its own year before it. Cycles of 400, 100 and 4 years are cut off first. -/
def yearOf (n : Int) : Int × Nat :=
  let r := n % 146097
  let c := r / 36524 - r / 36524 / 4
  let r := r - 36524 * c
  let q := r / 1461
  let r := r - 1461 * q
  let e := r / 365 - r / 365 / 4
  (400 * (n / 146097) + 100 * c + 4 * q + e, (r - 365 * e).toNat)

/-- The month of a day of the year. -/
def monthOf (y : Int) (yday : Nat) : Nat :=
  ((List.range 12).filter fun m => daysBeforeMonth y m ≤ yday).length

def ofDays (n : Int) : Date :=
  let (years, yday) := yearOf (n + 719162)
  let month := monthOf (years + 1) yday
  ⟨years + 1, month, yday - daysBeforeMonth (years + 1) (month - 1) + 1⟩

structure Valid (d : Date) : Prop where
  month : 1 ≤ d.month ∧ d.month ≤ 12
  day : 1 ≤ d.day ∧ d.day ≤ daysIn d.year d.month

theorem leapDay_le (y : Int) : leapDay y ≤ 1 := by
  rw [leapDay]
  split <;> omega

theorem cycles (n : Int) : ∃ a c q e d : Int, yearOf n = (400 * a + 100 * c + 4 * q + e, d.toNat) ∧
    n = 146097 * a + 36524 * c + 1461 * q + 365 * e + d ∧ (0 ≤ c ∧ c ≤ 3) ∧ (0 ≤ q ∧ q ≤ 24) ∧
    (0 ≤ e ∧ e ≤ 3) ∧ 0 ≤ d ∧ (d < 365 ∨ d = 365 ∧ e = 3 ∧ (q = 24 → c = 3)) := by
  have hn : n = 146097 * (n / 146097) + n % 146097 := by omega
  have hr : 0 ≤ n % 146097 ∧ n % 146097 < 146097 := by omega
  rw [yearOf]
  generalize n % 146097 = r at hn hr
  generalize n / 146097 = a at hn
  obtain ⟨c, hce, hc, hcr⟩ : ∃ c, r / 36524 - r / 36524 / 4 = c ∧ (0 ≤ c ∧ c ≤ 3) ∧
      0 ≤ r - 36524 * c ∧ (r - 36524 * c < 36524 ∨ c = 3 ∧ r - 36524 * c = 36524) :=
    ⟨_, rfl, by omega, by omega⟩
  obtain ⟨q, hqe, hq, hqr⟩ : ∃ q, (r - 36524 * c) / 1461 = q ∧ (0 ≤ q ∧ q ≤ 24) ∧
      0 ≤ r - 36524 * c - 1461 * q ∧ r - 36524 * c - 1461 * q ≤ 1460 :=
    ⟨_, rfl, by omega, by omega⟩
  obtain ⟨e, hee, he, her⟩ : ∃ e, (r - 36524 * c - 1461 * q) / 365 -
      (r - 36524 * c - 1461 * q) / 365 / 4 = e ∧ (0 ≤ e ∧ e ≤ 3) ∧
      0 ≤ r - 36524 * c - 1461 * q - 365 * e ∧ (r - 36524 * c - 1461 * q - 365 * e < 365 ∨
        e = 3 ∧ r - 36524 * c - 1461 * q - 365 * e = 365) :=
    ⟨_, rfl, by omega, by omega⟩
  refine ⟨a, c, q, e, r - 36524 * c - 1461 * q - 365 * e, ?_, ?_, hc, hq, he, her.1, ?_⟩
  · simp only [hce, hqe, hee]
  · omega
  · rcases her.2 with h | h
    · exact .inl h
    · exact .inr ⟨h.2, h.1, by omega⟩

theorem daysIn_le (y : Int) (m : Nat) : daysIn y m ≤ 31 := by
  have hl := leapDay_le y
  rw [daysIn]
  split
  · omega
  · split <;> omega

theorem yearOf_spec (n : Int) : daysOfYears (yearOf n).1 + (yearOf n).2 = n ∧
    (yearOf n).2 < 365 + leapDay ((yearOf n).1 + 1) := by
  obtain ⟨a, c, q, e, d, hy, hn, hc, hq, he, hd, hlast⟩ := cycles n
  have h4 : (400 * a + 100 * c + 4 * q + e) / 4 = 100 * a + 25 * c + q := by omega
  have h100 : (400 * a + 100 * c + 4 * q + e) / 100 = 4 * a + c := by omega
  have h400 : (400 * a + 100 * c + 4 * q + e) / 400 = a := by omega
  rw [hy]
  constructor
  · simp only [daysOfYears, h4, h100, h400]
    omega
  · rcases hlast with hlt | ⟨hd, he, hqc⟩
    · simp only
      omega
    · have hleap : isLeap (400 * a + 100 * c + 4 * q + e + 1) = true := by
        simp only [isLeap, Bool.and_eq_true, Bool.or_eq_true, decide_eq_true_eq]
        omega
      simp only [leapDay, hleap, if_true]
      omega

theorem monthOf_spec (y : Int) (h : yday < 365 + leapDay y) : ∃ m, m < 12 ∧
    monthOf y yday = m + 1 ∧ daysBeforeMonth y m ≤ yday ∧
    yday < daysBeforeMonth y m + daysIn y (m + 1) := by
  -- Only the leap day of the year matters, so there are two years to look at.
  have hall : ∀ l < 2, ∀ yday < 365 + l, ∃ m < 12,
      ((List.range 12).filter fun m =>
        daysBefore.getD m 0 + (if 2 ≤ m then l else 0) ≤ yday).length =
        m + 1 ∧ daysBefore.getD m 0 + (if 2 ≤ m then l else 0) ≤ yday ∧
      yday < daysBefore.getD m 0 + (if 2 ≤ m then l else 0) + (if m + 1 = 2 then 28 + l
        else if m + 1 = 4 ∨ m + 1 = 6 ∨ m + 1 = 9 ∨ m + 1 = 11 then 30 else 31) := by
    decide +kernel
  exact hall (leapDay y) (Nat.lt_succ_of_le (leapDay_le y)) yday h

theorem toDays_ofDays (n : Int) : (ofDays n).Valid ∧ (ofDays n).toDays = n := by
  obtain ⟨hsum, hlt⟩ := yearOf_spec (n + 719162)
  obtain ⟨m, hm, hmonth, hle, hday⟩ := monthOf_spec _ hlt
  rw [ofDays]
  refine ⟨⟨?_, ?_⟩, ?_⟩
  · simp only [hmonth]
    omega
  · simp only [hmonth, Nat.add_sub_cancel]
    omega
  · simp only [toDays, hmonth, Nat.add_sub_cancel, Int.add_sub_cancel]
    omega

end Date

namespace RFC3339

section Write

/-- The last `w` decimal digits of a number. -/
def pad : Nat → Nat → List Char
  | 0, _ => []
  | w + 1, n => (n / 10 ^ w % 10).digitChar :: pad w n

/-- The fraction of a second, without trailing zeros. -/
def fraction (ns : Nat) : List Char :=
  if ns = 0 then [] else '.' :: (pad 9 ns).rdropWhile (· = '0')

/-- The offset of the zone, of which the seconds are dropped. -/
def zone (offset : Int) : List Char :=
  if offset = 0 then ['Z']
  else
    let z := offset.tdiv 60
    (if z < 0 then '-' else '+') :: (pad 2 (z.natAbs / 60) ++ ':' :: pad 2 (z.natAbs % 60))

/-- The text of an instant, in nanoseconds from the start of 1970, in a zone that is `offset`
seconds ahead. -/
def write (t offset : Int) : List Char :=
  let secs := t / 10 ^ 9 + offset
  let date := Date.ofDays (secs / 86400)
  let sec := (secs % 86400).toNat
  pad 4 date.year.toNat ++ '-' :: (pad 2 date.month ++ '-' :: (pad 2 date.day ++ 'T' ::
    (pad 2 (sec / 3600) ++ ':' :: (pad 2 (sec / 60 % 60) ++ ':' :: (pad 2 (sec % 60) ++
      (fraction (t % 10 ^ 9).toNat ++ zone offset))))))

/-- The year of the text. -/
def yearAt (t offset : Int) : Int := (Date.ofDays ((t / 10 ^ 9 + offset) / 86400)).year

end Write

section Read

/-- The value of `w` digits after the digits already read. -/
def readDigits : Nat → Nat → List Char → Option (Nat × List Char)
  | 0, n, cs => some (n, cs)
  | _ + 1, _, [] => none
  | w + 1, n, c :: cs => if c.isDigit then readDigits w (n * 10 + (c.toNat - 48)) cs else none

/-- Two digits, or one where the layout allows it. -/
def getnum (fixed : Bool) (cs : List Char) : Option (Nat × List Char) :=
  match readDigits 2 0 cs with
  | some r => some r
  | none => if fixed then none else readDigits 1 0 cs

def expect (c : Char) : List Char → Option (List Char)
  | [] => none
  | d :: cs => if d = c then some cs else none

/-- A fraction, if there is one, of which nine digits count. -/
def readFraction : List Char → Nat × List Char
  | [] => (0, [])
  | c :: cs =>
    let ds := cs.takeWhile Char.isDigit
    if (c = '.' ∨ c = ',') ∧ ds ≠ [] then
      ((readDigits 9 0 (ds ++ List.replicate 9 '0')).elim 0 Prod.fst, cs.dropWhile Char.isDigit)
    else (0, c :: cs)

def readZone : List Char → Option (Int × List Char)
  | [] => none
  | c :: cs =>
    if c = 'Z' then some (0, cs)
    else do
      let hr ← getnum true cs
      let mm ← (expect ':' hr.2).bind (getnum true)
      let offset : Int := (hr.1 * 60 + mm.1) * 60
      if 24 < hr.1 ∨ 60 < mm.1 then none
      else if c = '+' then some (offset, mm.2)
      else if c = '-' then some (-offset, mm.2)
      else none

/-- The instant of a text. -/
def read (cs : List Char) : Option Int := do
  let y ← readDigits 4 0 cs
  let mo ← (expect '-' y.2).bind (getnum true)
  let d ← (expect '-' mo.2).bind (getnum true)
  let h ← (expect 'T' d.2).bind (getnum false)
  let mi ← (expect ':' h.2).bind (getnum true)
  let s ← (expect ':' mi.2).bind (getnum true)
  let z ← readZone (readFraction s.2).2
  let date : Date := ⟨y.1, mo.1, d.1⟩
  if (1 ≤ mo.1 ∧ mo.1 ≤ 12) ∧ (1 ≤ d.1 ∧ d.1 ≤ Date.daysIn y.1 mo.1) ∧ h.1 < 24 ∧ mi.1 < 60 ∧
      s.1 < 60 ∧ z.2 = [] then
    some ((date.toDays * 86400 + ((h.1 * 60 + mi.1) * 60 + s.1) - z.1) * 10 ^ 9 +
      (readFraction s.2).1)
  else none

end Read

section RoundTrip

theorem digitChar_spec (h : d < 10) : d.digitChar.isDigit = true ∧ d.digitChar.toNat - 48 = d := by
  interval_cases d <;> decide

theorem readDigits_pad (w k n : Nat) (rest : List Char) :
    readDigits w k (pad w n ++ rest) = some (k * 10 ^ w + n % 10 ^ w, rest) := by
  induction w generalizing k with
  | zero => simp [pad, readDigits, Nat.mod_one]
  | succ w ih =>
    obtain ⟨hd, hv⟩ := digitChar_spec (Nat.mod_lt (n / 10 ^ w) (show 0 < 10 by decide))
    rw [pad, List.cons_append, readDigits, if_pos hd, hv, ih]
    congr 2
    rw [Nat.pow_succ, Nat.mod_mul]
    ring

theorem getnum_pad (fixed : Bool) (h : n < 100) (rest : List Char) :
    getnum fixed (pad 2 n ++ rest) = some (n, rest) := by
  rw [getnum, readDigits_pad]
  simp only [Nat.zero_mul, Nat.zero_add]
  rw [Nat.mod_eq_of_lt (by simpa using h)]

theorem length_pad (w n : Nat) : (pad w n).length = w := by
  induction w with
  | zero => rfl
  | succ w ih => rw [pad, List.length_cons, ih]

theorem expect_cons (c : Char) (cs : List Char) : expect c (c :: cs) = some cs := if_pos rfl

theorem isDigit_of_mem_pad (h : c ∈ pad w n) : c.isDigit = true := by
  induction w with
  | zero => cases h
  | succ w ih =>
    rcases List.mem_cons.1 h with rfl | h
    · exact (digitChar_spec (Nat.mod_lt _ (by decide))).1
    · exact ih h

/-- What cannot be taken for a part of a fraction. -/
def Ends (cs : List Char) : Prop := ∀ c ∈ cs.head?, c.isDigit = false ∧ c ≠ '.' ∧ c ≠ ','

theorem readDigits_trimmed (h : ns < 10 ^ 9) (hz : ns ≠ 0) :
    (pad 9 ns).rdropWhile (· = '0') ≠ [] ∧
    readDigits 9 0 ((pad 9 ns).rdropWhile (· = '0') ++ List.replicate 9 '0') =
      some (ns, List.replicate ((pad 9 ns).rdropWhile (· = '0')).length '0') := by
  generalize ht : (pad 9 ns).rdropWhile (· = '0') = t
  generalize hzs : (pad 9 ns).rtakeWhile (· = '0') = zs
  have hsplit : t ++ zs = pad 9 ns := by
    rw [← ht, ← hzs]
    exact List.rdropWhile_append_rtakeWhile
  have hlen : t.length + zs.length = 9 := by
    rw [← List.length_append, hsplit, length_pad]
  have hzeros : zs = List.replicate zs.length '0' := by
    rw [List.eq_replicate_iff]
    refine ⟨rfl, fun c hc => ?_⟩
    rw [← hzs] at hc
    simpa using List.mem_rtakeWhile_imp hc
  have hread := readDigits_pad 9 0 ns
  rw [Nat.zero_mul, Nat.zero_add, Nat.mod_eq_of_lt h] at hread
  constructor
  · rintro rfl
    have hall : pad 9 ns = List.replicate 9 '0' := by
      rw [← hsplit, List.nil_append, hzeros]
      congr 1
      simpa using hlen
    have hzero := hread []
    rw [hall] at hzero
    cases hzero
    exact hz rfl
  · have hsplit9 : List.replicate 9 '0' = zs ++ List.replicate t.length '0' := by
      rw [hzeros, List.replicate_append_replicate, Nat.add_comm, hlen]
    rw [hsplit9, ← List.append_assoc, hsplit, hread]

theorem readFraction_fraction (h : ns < 10 ^ 9) (he : Ends rest) :
    readFraction (fraction ns ++ rest) = (ns, rest) := by
  rw [fraction]
  split
  · rename_i hz
    cases rest with
    | nil => rw [hz]; rfl
    | cons c cs =>
      obtain ⟨_, hdot, hcomma⟩ := he c rfl
      rw [List.nil_append, readFraction, hz]
      simp [hdot, hcomma]
  · rename_i hz
    obtain ⟨hne, hfull⟩ := readDigits_trimmed h hz
    have hdigits : ∀ c ∈ (pad 9 ns).rdropWhile (· = '0'), c.isDigit = true :=
      fun c hc => isDigit_of_mem_pad ((List.rdropWhile_prefix _ _).subset hc)
    have hrest : rest.takeWhile Char.isDigit = [] ∧ rest.dropWhile Char.isDigit = rest := by
      cases rest with
      | nil => exact ⟨rfl, rfl⟩
      | cons c cs => simp [(he c rfl).1]
    rw [List.cons_append, readFraction]
    simp only [List.takeWhile_append_of_pos hdigits, List.dropWhile_append_of_pos hdigits, hrest,
      List.append_nil, hfull]
    rw [if_pos ⟨.inl trivial, hne⟩]
    rfl

theorem readZone_zone (hm : offset % 60 = 0) (hlt : offset.natAbs < 86400) :
    readZone (zone offset) = some (offset, []) := by
  rw [zone]
  split
  · rename_i hz
    rw [hz]
    rfl
  · rename_i hz
    have hdiv : offset.tdiv 60 * 60 = offset := Int.tdiv_mul_cancel (Int.dvd_of_emod_eq_zero hm)
    generalize offset.tdiv 60 = z at hdiv
    have hh : z.natAbs / 60 < 24 := by omega
    have hmin : z.natAbs % 60 < 60 := Nat.mod_lt _ (by decide)
    have hnum := getnum_pad true (show z.natAbs % 60 < 100 by omega) []
    rw [List.append_nil] at hnum
    have hsign : (if z < 0 then '-' else '+') ≠ 'Z' := by split <;> decide
    simp only [readZone, if_neg hsign, getnum_pad true (show z.natAbs / 60 < 100 by omega),
      expect_cons, hnum, Option.bind_eq_bind, Option.bind_some]
    rw [if_neg (by omega)]
    by_cases hneg : z < 0
    · simp only [if_pos hneg, show ('-' : Char) ≠ '+' by decide, if_false, if_true]
      congr 2
      omega
    · simp only [if_neg hneg, if_true]
      congr 2
      omega

theorem ends_zone (offset : Int) : Ends (zone offset) := by
  rw [zone]
  split
  · rintro c ⟨rfl⟩
    decide
  · rintro c ⟨rfl⟩
    split <;> decide

/-- The text of an instant reads back as the instant, whatever the zone, as long as its year has
four digits and its offset is made of whole minutes. -/
theorem read_write (hy : 0 ≤ yearAt t offset ∧ yearAt t offset ≤ 9999) (hm : offset % 60 = 0)
    (hlt : offset.natAbs < 86400) : read (write t offset) = some t := by
  rw [yearAt] at hy
  rw [write]
  generalize hsecs : t / 10 ^ 9 + offset = secs at hy ⊢
  obtain ⟨⟨hmonth, hday⟩, hdays⟩ := Date.toDays_ofDays (secs / 86400)
  generalize Date.ofDays (secs / 86400) = date at hy hmonth hday hdays ⊢
  have hday' : date.day < 100 := by
    have hle : Date.daysIn date.year date.month ≤ 31 := Date.daysIn_le _ _
    omega
  have hsec : (secs % 86400).toNat < 86400 := by omega
  have hyear : date.year.toNat % 10 ^ 4 = date.year.toNat := Nat.mod_eq_of_lt (by omega)
  have hns : (t % 10 ^ 9).toNat < 10 ^ 9 := by omega
  have hynat : (date.year.toNat : Int) = date.year := Int.toNat_of_nonneg hy.1
  simp only [read, readDigits_pad, hyear, expect_cons,
    getnum_pad true (show date.month < 100 by omega),
    getnum_pad true hday', getnum_pad false (show (secs % 86400).toNat / 3600 < 100 by omega),
    getnum_pad true (show (secs % 86400).toNat / 60 % 60 < 100 by omega),
    getnum_pad true (show (secs % 86400).toNat % 60 < 100 by omega),
    readFraction_fraction hns (ends_zone offset), readZone_zone hm hlt, Option.bind_eq_bind,
    Option.bind_some, Nat.zero_mul, Nat.zero_add, hynat]
  rw [if_pos ⟨hmonth, hday, by omega, by omega, by omega, trivial⟩, hdays]
  congr 1
  omega

/-- The runes of such a text. -/
def IsTextRune (c : Char) : Prop := c.isDigit = true ∨ c ∈ ['-', 'T', ':', '.', 'Z', '+']

theorem isTextRune_zone (h : c ∈ zone offset) : IsTextRune c := by
  rw [zone] at h
  split at h
  · rw [List.mem_singleton] at h
    rw [h]
    exact .inr (by decide)
  · simp only [List.mem_cons, List.mem_append] at h
    rcases h with rfl | h | rfl | h
    · split
      · exact .inr (by decide)
      · exact .inr (by decide)
    · exact .inl (isDigit_of_mem_pad h)
    · exact .inr (by decide)
    · exact .inl (isDigit_of_mem_pad h)

theorem isTextRune_fraction (h : c ∈ fraction ns) : IsTextRune c := by
  rw [fraction] at h
  split at h
  · cases h
  · rcases List.mem_cons.1 h with rfl | h
    · exact .inr (by decide)
    · exact .inl (isDigit_of_mem_pad ((List.rdropWhile_prefix _ _).subset h))

theorem isTextRune_write (h : c ∈ write t offset) : IsTextRune c := by
  simp only [write, List.mem_append, List.mem_cons] at h
  rcases h with h | rfl | h | rfl | h | rfl | h | rfl | h | rfl | h | h | h
  all_goals first
    | exact .inl (isDigit_of_mem_pad h)
    | exact isTextRune_fraction h
    | exact isTextRune_zone h
    | exact .inr (by decide)

end RoundTrip

end RFC3339

end HyruleProxy
