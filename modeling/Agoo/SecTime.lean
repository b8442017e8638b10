import Agoo.Numbers
import Mathlib.Algebra.Order.Group.Unbundled.Int
import Mathlib.Algebra.Order.Ring.Int
import Mathlib.Tactic.Common

/-!
# Calendar time (`sectime.c`)

`agooSectime` cuts the seconds since the year 0 into blocks of 400, 100, 4 and 1 years, each with a leap
flag of its own, and reads the month from one of two tables. `Valid` and `seconds` are the proleptic
Gregorian calendar. In the first four years of a block of 400 the flag is set for the three years behind
the leap year as well, so that their dates from March on are a day behind (`sectime_iff`).
-/

namespace Agoo

namespace SecTime

/-! ## The conversion -/

def secsPerDay : ℤ := 86400
def secsPerYear : ℤ := 31536000
def secsPerLeap : ℤ := 31622400
def secsPerQuadYear : ℤ := secsPerYear * 3 + secsPerLeap
def secsPerCent : ℤ := secsPerQuadYear * 24 + secsPerYear * 4
def secsPerLeapCent : ℤ := secsPerCent + secsPerDay
def secsPerQuadCent : ℤ := secsPerCent * 4 + secsPerDay

/-- The seconds of a year up to the end of each month. -/
def eomSecs : List ℤ :=
  [2678400, 5097600, 7776000, 10368000, 13046400, 15638400,
   18316800, 20995200, 23587200, 26265600, 28857600, 31536000]

def eomLeapSecs : List ℤ :=
  [2678400, 5184000, 7862400, 10454400, 13132800, 15724800,
   18403200, 21081600, 23673600, 26352000, 28944000, 31622400]

/-- `struct _agooTime`. -/
structure AgooTime where
  sec : ℤ
  min : ℤ
  hour : ℤ
  day : ℤ
  mon : ℤ
  year : ℤ
  deriving DecidableEq

/-- Where in a block of 400 years some seconds are: the years before, the seconds left, and `leap`. -/
def yearIn (secs : ℤ) : ℤ × ℤ × Bool :=
  if secs < secsPerLeap then (0, secs, true)
  else if secs < secsPerQuadYear then
    let secs := secs - secsPerLeap
    let y := secs.tdiv secsPerYear
    (y + 1, secs - y * secsPerYear, true)
  else if secs < secsPerLeapCent then
    let qy := secs.tdiv secsPerQuadYear
    let secs := secs - qy * secsPerQuadYear
    if secs < secsPerLeap then (qy * 4, secs, true)
    else
      let secs := secs - secsPerLeap
      let y := secs.tdiv secsPerYear
      (qy * 4 + (y + 1), secs - y * secsPerYear, false)
  else
    let secs := secs - secsPerLeapCent
    let c := secs.tdiv secsPerCent
    let secs := secs - c * secsPerCent
    let c := c + 1
    if secs < secsPerYear * 4 then
      let y := secs.tdiv secsPerYear
      (c * 100 + y, secs - y * secsPerYear, false)
    else
      let secs := secs - secsPerYear * 4
      let qy := secs.tdiv secsPerQuadYear
      let secs := secs - qy * secsPerQuadYear
      let qy := qy + 1
      if secs < secsPerLeap then (c * 100 + qy * 4, secs, true)
      else
        let secs := secs - secsPerLeap
        let y := secs.tdiv secsPerYear
        (c * 100 + qy * 4 + (y + 1), secs - y * secsPerYear, false)

/-- The loop over the ends of the months, from the month `m` on; `before` is the end of the one before. -/
def monthOf (secs : ℤ) : List ℤ → ℤ → ℤ → Option (ℤ × ℤ)
  | [], _, _ => none
  | eom :: ms, m, before =>
    if secs < eom then some (m, if 1 < m then secs - before else secs)
    else monthOf secs ms (m + 1) eom

/-- The fields but the year, from the seconds of the year; the month is set only if one is found. -/
def fill (year secs : ℤ) (leap : Bool) (old : AgooTime) : AgooTime :=
  let r := (monthOf secs (if leap then eomLeapSecs else eomSecs) 1 0).getD (old.mon, secs)
  let secs := r.2
  let day := secs.tdiv 86400
  let secs := secs - day * 86400
  let hour := secs.tdiv 3600
  let secs := secs - hour * 3600
  let min := secs.tdiv 60
  { sec := secs - min * 60, min, hour, day := day + 1, mon := r.1, year }

/-- `agoo_sectime`. -/
def agooSectime (secs : ℤ) (old : AgooTime) : AgooTime :=
  let secs := secs + 62167219200
  let shift := if secs < 0 then toInt ((-secs).tdiv secsPerQuadCent) + 1 else 0
  let secs := secs + shift * secsPerQuadCent
  let qc := secs.tdiv secsPerQuadCent
  let r := yearIn (secs - qc * secsPerQuadCent)
  fill (toInt ((qc - shift) * 400 + r.1)) r.2.1 r.2.2 old

/-! ## The calendar -/

def isLeap (year : ℤ) : Bool := year % 4 = 0 && (year % 100 ≠ 0 || year % 400 = 0)

/-- The days of the months of a year. -/
def monthDays (leap : Bool) : List ℤ :=
  [31, if leap then 29 else 28, 31, 30, 31, 30, 31, 31, 30, 31, 30, 31]

/-- The days of a month. -/
def daysIn (leap : Bool) (mon : ℤ) : ℤ := (monthDays leap).getD (mon.toNat - 1) 0

/-- The days of a year before a month. -/
def daysBefore (leap : Bool) (mon : ℤ) : ℤ := ((monthDays leap).take (mon.toNat - 1)).sum

/-- The days from the first day of the year 1 to the first day of a year. -/
def yearStart (year : ℤ) : ℤ :=
  365 * (year - 1) + (year - 1) / 4 - (year - 1) / 100 + (year - 1) / 400

/-- The time is one of the calendar and the clock. -/
structure AgooTime.Valid (t : AgooTime) : Prop where
  mon : 1 ≤ t.mon ∧ t.mon ≤ 12
  day : 1 ≤ t.day ∧ t.day ≤ daysIn (isLeap t.year) t.mon
  hour : 0 ≤ t.hour ∧ t.hour < 24
  min : 0 ≤ t.min ∧ t.min < 60
  sec : 0 ≤ t.sec ∧ t.sec < 60

/-- The day of a year, the first being 0. -/
def AgooTime.yearDay (t : AgooTime) : ℤ := daysBefore (isLeap t.year) t.mon + (t.day - 1)

/-- The seconds since the first day of 1970. -/
def AgooTime.seconds (t : AgooTime) : ℤ :=
  (yearStart t.year + t.yearDay - 719162) * 86400 + t.hour * 3600 + t.min * 60 + t.sec

/-- The year is an `int`. -/
def AgooTime.IntYear (t : AgooTime) : Prop := -0x80000000 ≤ t.year ∧ t.year < 0x80000000

/-- The time is in March or later, in one of the three years behind the first of a block of 400. -/
def AgooTime.BehindLeap (t : AgooTime) : Prop :=
  3 ≤ t.mon ∧ (t.year % 400 = 1 ∨ t.year % 400 = 2 ∨ t.year % 400 = 3)

/-! ## Years -/

theorem isLeap_iff (year : ℤ) : isLeap year = true ↔ year % 4 = 0 ∧ (year % 100 ≠ 0 ∨ year % 400 = 0) := by
  simp [isLeap]

/-- The days of a year. -/
def yearDays (leap : Bool) : ℤ := if leap then 366 else 365

theorem yearStart_next (year : ℤ) : yearStart (year + 1) = yearStart year + yearDays (isLeap year) := by
  have h := isLeap_iff year
  unfold yearStart yearDays
  split_ifs with hl
  · rw [h] at hl
    omega
  · rw [h] at hl
    omega

theorem yearStart_block (block year : ℤ) : yearStart (block * 400 + year) = 146097 * block + yearStart year := by
  unfold yearStart
  omega

theorem isLeap_block (block year : ℤ) : isLeap (block * 400 + year) = isLeap year := by
  rw [Bool.eq_iff_iff, isLeap_iff, isLeap_iff]
  omega

theorem yearStart_le {a b : ℤ} (h : a ≤ b) : yearStart a ≤ yearStart b := by
  unfold yearStart
  omega

/-- A quotient is the number of whole blocks. -/
theorem tdiv_bounds {a b : ℤ} (ha : 0 ≤ a) (hb : 0 < b) :
    0 ≤ a.tdiv b ∧ a.tdiv b * b ≤ a ∧ a < a.tdiv b * b + b := by
  rw [Int.tdiv_eq_ediv_of_nonneg ha]
  have hmod := Int.emod_nonneg a hb.ne'
  have hlt := Int.emod_lt_of_pos a hb
  have hdiv := Int.mul_ediv_add_emod a b
  rw [mul_comm] at hdiv
  exact ⟨Int.ediv_nonneg ha hb.le, by omega, by omega⟩

/-- What is found in a block of 400 years: the year, the seconds of it, and the flag. -/
structure Found (secs : ℤ) (r : ℤ × ℤ × Bool) : Prop where
  year : 0 ≤ r.1 ∧ r.1 < 400
  rest : 0 ≤ r.2.1 ∧ r.2.1 < yearDays (isLeap r.1) * 86400
  secs : secs = (yearStart r.1 + 366) * 86400 + r.2.1
  leap : r.2.2 = true ↔ isLeap r.1 = true ∨ r.1 = 1 ∨ r.1 = 2 ∨ r.1 = 3

/-- Where a year of a block begins, from its century, the fourth of it and the year of that. -/
theorem yearStart_parts {c qy y : ℤ} (hc : 0 ≤ c ∧ c < 4) (hqy : 0 ≤ qy ∧ qy < 25) (hy : 0 ≤ y ∧ y < 4) :
    yearStart (c * 100 + qy * 4 + y) = 365 * (c * 100 + qy * 4 + y) - 366 + (c * 24 + qy) +
      (if y = 0 then 0 else 1) - (if qy = 0 ∧ y = 0 then 0 else 1) +
        (if c = 0 ∧ qy = 0 ∧ y = 0 then 0 else 1) := by
  unfold yearStart
  have hquad : (c * 100 + qy * 4 + y - 1) / 4 = c * 25 + qy - (if y = 0 then 1 else 0) := by
    split_ifs
    · omega
    · omega
  have hcent : (c * 100 + qy * 4 + y - 1) / 100 = c - (if qy = 0 ∧ y = 0 then 1 else 0) := by
    split_ifs
    · omega
    · omega
  have hblock : (c * 100 + qy * 4 + y - 1) / 400 = -(if c = 0 ∧ qy = 0 ∧ y = 0 then 1 else 0) := by
    split_ifs
    · omega
    · omega
  rw [hquad, hcent, hblock]
  split_ifs
  all_goals omega

theorem isLeap_parts {c qy y : ℤ} (hc : 0 ≤ c ∧ c < 4) (hqy : 0 ≤ qy ∧ qy < 25) (hy : 0 ≤ y ∧ y < 4) :
    isLeap (c * 100 + qy * 4 + y) = true ↔ y = 0 ∧ (qy ≠ 0 ∨ c = 0) := by
  rw [isLeap_iff]
  omega

theorem Found.of {secs year rest : ℤ} {leap : Bool} (c qy y : ℤ) (hyear : year = c * 100 + qy * 4 + y)
    (hc : 0 ≤ c ∧ c < 4) (hqy : 0 ≤ qy ∧ qy < 25) (hy : 0 ≤ y ∧ y < 4)
    (hrest : 0 ≤ rest ∧ rest < if y = 0 ∧ (qy ≠ 0 ∨ c = 0) then 31622400 else 31536000)
    (hsecs : secs = (365 * (c * 100 + qy * 4 + y) + (c * 24 + qy) +
      (if y = 0 then 0 else 1) - (if qy = 0 ∧ y = 0 then 0 else 1) +
        (if c = 0 ∧ qy = 0 ∧ y = 0 then 0 else 1)) * 86400 + rest)
    (hleap : leap = true ↔ y = 0 ∧ (qy ≠ 0 ∨ c = 0) ∨ c = 0 ∧ qy = 0) :
    Found secs (year, rest, leap) := by
  subst hyear
  refine ⟨by dsimp only; omega, ⟨hrest.1, ?_⟩, ?_, ?_⟩
  · have hlt := hrest.2
    have hl := isLeap_parts hc hqy hy
    dsimp only
    cases hleap : isLeap (c * 100 + qy * 4 + y) with
    | true =>
      rw [if_pos (hl.mp hleap)] at hlt
      exact hlt
    | false =>
      rw [hleap] at hl
      rw [if_neg (fun h => Bool.false_ne_true (hl.mpr h))] at hlt
      exact hlt
  · rw [yearStart_parts hc hqy hy, hsecs]
    dsimp only
    omega
  · rw [hleap, isLeap_parts hc hqy hy]
    dsimp only
    omega

theorem Found.ite {secs : ℤ} {p : Prop} [Decidable p] {r r' : ℤ × ℤ × Bool} (h : p → Found secs r)
    (h' : ¬ p → Found secs r') : Found secs (if p then r else r') := by
  split_ifs with hp
  · exact h hp
  · exact h' hp

theorem yearIn_found {secs : ℤ} (h0 : 0 ≤ secs) (hlt : secs < secsPerQuadCent) :
    Found secs (yearIn secs) := by
  unfold yearIn
  refine Found.ite (fun hfirst => ?_) fun hfirst => Found.ite (fun hquad => ?_) fun hquad =>
    Found.ite (fun hcent => Found.ite (fun hrest => ?_) fun hrest => ?_) fun hcent =>
      Found.ite (fun hfour => ?_) fun hfour => Found.ite (fun hrest => ?_) fun hrest => ?_
  all_goals
    simp only [secsPerQuadCent, secsPerLeapCent, secsPerCent, secsPerQuadYear, secsPerYear, secsPerLeap,
      secsPerDay, Int.reduceMul, Int.reduceAdd] at *
  · exact Found.of 0 0 0 rfl (by decide) (by decide) (by decide) ⟨h0, hfirst⟩
      (by simp) (by simp)
  · obtain ⟨hy0, hyle, hylt⟩ := tdiv_bounds (a := secs - 31622400) (b := 31536000) (by omega) (by omega)
    generalize (secs - 31622400).tdiv 31536000 = y at hy0 hyle hylt ⊢
    refine Found.of 0 0 (y + 1) (by omega) (by decide) (by decide) (by omega) ?_ ?_ ?_
    · split_ifs
      all_goals omega
    · split_ifs
      all_goals omega
    · exact iff_of_true rfl (Or.inr ⟨rfl, rfl⟩)
  · obtain ⟨hq0, hqle, hqlt⟩ := tdiv_bounds (a := secs)
      (b := 126230400) (by omega) (by omega)
    generalize secs.tdiv 126230400 = q at hq0 hqle hqlt hrest ⊢
    refine Found.of 0 q 0 (by omega) (by omega) (by omega) (by omega) ?_ ?_ ?_
    · split_ifs
      all_goals omega
    · split_ifs
      all_goals omega
    · exact iff_of_true rfl (Or.inl ⟨rfl, Or.inl (by omega)⟩)
  · obtain ⟨hq0, hqle, hqlt⟩ := tdiv_bounds (a := secs)
      (b := 126230400) (by omega) (by omega)
    generalize secs.tdiv 126230400 = q at hq0 hqle hqlt hrest ⊢
    obtain ⟨hy0, hyle, hylt⟩ := tdiv_bounds (a := secs - q * 126230400 - 31622400)
      (b := 31536000) (by omega) (by omega)
    generalize (secs - q * 126230400 - 31622400).tdiv 31536000 = y at hy0 hyle hylt ⊢
    refine Found.of 0 q (y + 1) (by omega) (by omega) (by omega) (by omega) ?_ ?_ ?_
    · split_ifs
      all_goals omega
    · split_ifs
      all_goals omega
    · simp only [Bool.false_eq_true, false_iff]
      omega
  · obtain ⟨hc0, hcle, hclt⟩ := tdiv_bounds (a := secs - 3155760000)
      (b := 3155673600) (by omega) (by omega)
    generalize (secs - 3155760000).tdiv 3155673600 = c at hc0 hcle hclt hfour ⊢
    obtain ⟨hy0, hyle, hylt⟩ := tdiv_bounds (a := secs - 3155760000 - c * 3155673600)
      (b := 31536000) (by omega) (by omega)
    generalize (secs - 3155760000 - c * 3155673600).tdiv 31536000 = y at hy0 hyle hylt ⊢
    refine Found.of (c + 1) 0 y (by omega) (by omega) (by omega) (by omega) ?_ ?_ ?_
    · split_ifs
      all_goals omega
    · split_ifs
      all_goals omega
    · simp only [Bool.false_eq_true, false_iff]
      omega
  · obtain ⟨hc0, hcle, hclt⟩ := tdiv_bounds (a := secs - 3155760000)
      (b := 3155673600) (by omega) (by omega)
    generalize (secs - 3155760000).tdiv 3155673600 = c at hc0 hcle hclt hfour hrest ⊢
    obtain ⟨hq0, hqle, hqlt⟩ := tdiv_bounds (a := secs - 3155760000 - c * 3155673600 - 126144000)
      (b := 126230400) (by omega) (by omega)
    generalize (secs - 3155760000 - c * 3155673600 - 126144000).tdiv 126230400 = q at hq0 hqle hqlt hrest ⊢
    refine Found.of (c + 1) (q + 1) 0 (by omega) (by omega) (by omega) (by omega) ?_ ?_ ?_
    · split_ifs
      all_goals omega
    · split_ifs
      all_goals omega
    · exact iff_of_true rfl (Or.inl ⟨rfl, Or.inl (by omega)⟩)
  · obtain ⟨hc0, hcle, hclt⟩ := tdiv_bounds (a := secs - 3155760000)
      (b := 3155673600) (by omega) (by omega)
    generalize (secs - 3155760000).tdiv 3155673600 = c at hc0 hcle hclt hfour hrest ⊢
    obtain ⟨hq0, hqle, hqlt⟩ := tdiv_bounds (a := secs - 3155760000 - c * 3155673600 - 126144000)
      (b := 126230400) (by omega) (by omega)
    generalize (secs - 3155760000 - c * 3155673600 - 126144000).tdiv 126230400 = q at hq0 hqle hqlt hrest ⊢
    obtain ⟨hy0, hyle, hylt⟩ :=
      tdiv_bounds (a := secs - 3155760000 - c * 3155673600 - 126144000 - q * 126230400 - 31622400)
        (b := 31536000) (by omega) (by omega)
    generalize (secs - 3155760000 - c * 3155673600 - 126144000 - q * 126230400 - 31622400).tdiv 31536000 = y
      at hy0 hyle hylt ⊢
    refine Found.of (c + 1) (q + 1) (y + 1) (by omega) (by omega) (by omega) (by omega) ?_ ?_ ?_
    · split_ifs
      all_goals omega
    · split_ifs
      all_goals omega
    · simp only [Bool.false_eq_true, false_iff]
      omega

/-! ## Months and the clock -/

/-- The ends of months of so many days each, in seconds. -/
def ends : ℤ → List ℤ → List ℤ
  | _, [] => []
  | before, days :: ds => (before + days) * 86400 :: ends (before + days) ds

/-- The month found is the one in which the seconds are. -/
theorem monthOf_ends (secs : ℤ) (ds : List ℤ) : ∀ m before : ℤ, 1 ≤ m → (m = 1 → before = 0) →
    before * 86400 ≤ secs → secs < (before + ds.sum) * 86400 →
    ∃ k < ds.length, monthOf secs (ends before ds) m (before * 86400) =
        some (m + k, secs - (before + (ds.take k).sum) * 86400) ∧
      (before + (ds.take k).sum) * 86400 ≤ secs ∧
        secs < (before + (ds.take k).sum + ds.getD k 0) * 86400 := by
  induction ds with
  | nil =>
    intro m before _ _ hle hlt
    rw [List.sum_nil, add_zero] at hlt
    omega
  | cons days ds ih =>
    intro m before hm hfirst hle hlt
    rw [List.sum_cons, ← add_assoc] at hlt
    rcases lt_or_ge secs ((before + days) * 86400) with hin | hout
    · refine ⟨0, Nat.succ_pos _, ?_, ?_, ?_⟩
      · simp only [ends, monthOf, if_pos hin, List.take_zero, List.sum_nil, Int.add_zero, Int.natCast_zero]
        split_ifs with h1
        · rfl
        · rw [hfirst (by omega), Int.zero_mul, Int.sub_zero]
      · simpa using hle
      · simpa using hin
    · obtain ⟨k, hk, hmonth, hge, hend⟩ := ih (m + 1) (before + days) (by omega) (by omega) hout hlt
      refine ⟨k + 1, Nat.succ_lt_succ hk, ?_, ?_, ?_⟩
      · simp only [ends, monthOf, if_neg (not_lt.mpr hout), hmonth, List.take_succ_cons, List.sum_cons,
          ← add_assoc, Int.natCast_add, Int.natCast_one]
        congr 2
        omega
      · rw [List.take_succ_cons, List.sum_cons, ← add_assoc]
        exact hge
      · rw [List.take_succ_cons, List.sum_cons, ← add_assoc, List.getD_cons_succ]
        exact hend

theorem ends_monthDays (leap : Bool) :
    ends 0 (monthDays leap) = if leap then eomLeapSecs else eomSecs := by
  cases leap with
  | true => rfl
  | false => rfl

/-- The month of some seconds of a year, and the seconds of that month. -/
theorem monthOf_spec (leap : Bool) {secs : ℤ} (h0 : 0 ≤ secs) (hlt : secs < yearDays leap * 86400) :
    ∃ mon, (1 ≤ mon ∧ mon ≤ 12) ∧
      monthOf secs (if leap then eomLeapSecs else eomSecs) 1 0 =
        some (mon, secs - daysBefore leap mon * 86400) ∧
      daysBefore leap mon * 86400 ≤ secs ∧
        secs < (daysBefore leap mon + daysIn leap mon) * 86400 := by
  have hsum : (monthDays leap).sum = yearDays leap := by
    cases leap with
    | true => rfl
    | false => rfl
  obtain ⟨k, hk, hmonth, hge, hend⟩ := monthOf_ends secs (monthDays leap) 1 0
    le_rfl (fun _ => rfl) (by omega) (by rw [hsum]; omega)
  have hlen : (monthDays leap).length = 12 := rfl
  have hmon : (1 + (k : ℤ)).toNat - 1 = k := by omega
  rw [ends_monthDays, Int.zero_mul] at hmonth
  rw [zero_add] at hmonth hge hend
  refine ⟨1 + k, by omega, ?_, ?_, ?_⟩
  · rw [hmonth, daysBefore, hmon]
  · rw [daysBefore, hmon]
    exact hge
  · rw [daysBefore, daysIn, hmon]
    exact hend

/-- The fields in terms of the month found. -/
theorem fill_fields (year : ℤ) {secs mon rest : ℤ} {leap : Bool} (old : AgooTime)
    (h : monthOf secs (if leap then eomLeapSecs else eomSecs) 1 0 = some (mon, rest)) (h0 : 0 ≤ rest) :
    ∃ day hour min sec, fill year secs leap old = ⟨sec, min, hour, day + 1, mon, year⟩ ∧
      rest = day * 86400 + hour * 3600 + min * 60 + sec ∧ 0 ≤ day ∧ (0 ≤ hour ∧ hour < 24) ∧
        (0 ≤ min ∧ min < 60) ∧ (0 ≤ sec ∧ sec < 60) := by
  unfold fill
  rw [h]
  obtain ⟨hd0, hdle, hdlt⟩ := tdiv_bounds (b := 86400) h0 (by omega)
  dsimp only [Option.getD_some]
  generalize rest.tdiv 86400 = day at *
  obtain ⟨hh0, hhle, hhlt⟩ := tdiv_bounds (a := rest - day * 86400) (b := 3600) (by omega) (by omega)
  generalize (rest - day * 86400).tdiv 3600 = hour at *
  obtain ⟨hm0, hmle, hmlt⟩ :=
    tdiv_bounds (a := rest - day * 86400 - hour * 3600) (b := 60) (by omega) (by omega)
  generalize (rest - day * 86400 - hour * 3600).tdiv 60 = min at *
  exact ⟨day, hour, min, _, rfl, by omega, hd0, by omega, by omega, by omega⟩

/-- With the right flag the fields are those of the calendar. -/
theorem fill_valid (year : ℤ) {secs : ℤ} (old : AgooTime) (h0 : 0 ≤ secs)
    (hlt : secs < yearDays (isLeap year) * 86400) :
    (fill year secs (isLeap year) old).Valid ∧
      (fill year secs (isLeap year) old).seconds = (yearStart year - 719162) * 86400 + secs := by
  obtain ⟨mon, hmon, hmonth, hge, hend⟩ := monthOf_spec (isLeap year) h0 hlt
  obtain ⟨day, hour, min, sec, hfill, hrest, hday, hhour, hmin, hsec⟩ :=
    fill_fields year old hmonth (by omega)
  rw [hfill]
  constructor
  · exact ⟨hmon, ⟨by dsimp only; omega, by dsimp only; omega⟩, hhour, hmin, hsec⟩
  · unfold AgooTime.seconds AgooTime.yearDay
    dsimp only
    omega

/-! ## One time for each second -/

theorem sum_take_succ : ∀ leap, ∀ k < 12, ((monthDays leap).take (k + 1)).sum =
    ((monthDays leap).take k).sum + (monthDays leap).getD k 0 := by
  decide

theorem sum_take_le : ∀ leap, ∀ k ≤ 12, ∀ l ≤ k,
    ((monthDays leap).take l).sum ≤ ((monthDays leap).take k).sum := by
  decide

/-- A month ends before a later one begins. -/
theorem daysBefore_add_le (leap : Bool) {mon mon' : ℤ} (h1 : 1 ≤ mon) (h : mon < mon') (h13 : mon' ≤ 13) :
    daysBefore leap mon + daysIn leap mon ≤ daysBefore leap mon' := by
  have hsucc := sum_take_succ leap (mon.toNat - 1) (by omega)
  have hle := sum_take_le leap (mon'.toNat - 1) (by omega) (mon.toNat - 1 + 1) (by omega)
  unfold daysBefore daysIn
  omega

theorem yearDay_bounds {t : AgooTime} (h : t.Valid) :
    0 ≤ t.yearDay ∧ t.yearDay < yearDays (isLeap t.year) := by
  have hday := h.day
  have hmon := h.mon
  have hfirst := sum_take_le (isLeap t.year) (t.mon.toNat - 1) (by omega) 0 (by omega)
  have hlast := daysBefore_add_le (isLeap t.year) hmon.1 (Int.lt_add_one_of_le hmon.2) (by omega)
  have hend : daysBefore (isLeap t.year) (12 + 1) = yearDays (isLeap t.year) := by
    cases isLeap t.year with
    | true => rfl
    | false => rfl
  have hzero : ((monthDays (isLeap t.year)).take 0).sum = 0 := rfl
  rw [hzero] at hfirst
  unfold AgooTime.yearDay
  unfold daysBefore at hlast hend ⊢
  omega

/-- Valid times of one second are the same. -/
theorem Valid.unique {t u : AgooTime} (ht : t.Valid) (hu : u.Valid) (h : t.seconds = u.seconds) :
    t = u := by
  have hth := ht.hour
  have htm := ht.min
  have hts := ht.sec
  have huh := hu.hour
  have hum := hu.min
  have hus := hu.sec
  unfold AgooTime.seconds at h
  have hdays : yearStart t.year + t.yearDay = yearStart u.year + u.yearDay := by omega
  have htd := yearDay_bounds ht
  have hud := yearDay_bounds hu
  have hnext := yearStart_next t.year
  have hnext' := yearStart_next u.year
  have hyear : t.year = u.year := by
    rcases Int.lt_trichotomy t.year u.year with hlt | heq | hgt
    · have hle := yearStart_le (Int.add_one_le_of_lt hlt)
      omega
    · exact heq
    · have hle := yearStart_le (Int.add_one_le_of_lt hgt)
      omega
  have hyd : t.yearDay = u.yearDay := by
    rw [hyear] at hdays
    omega
  have htday := ht.day
  have huday := hu.day
  have htmon := ht.mon
  have humon := hu.mon
  unfold AgooTime.yearDay at hyd
  rw [hyear] at hyd htday
  have hmon : t.mon = u.mon := by
    rcases Int.lt_trichotomy t.mon u.mon with hlt | heq | hgt
    · have hle := daysBefore_add_le (isLeap u.year) htmon.1 hlt (by omega)
      omega
    · exact heq
    · have hle := daysBefore_add_le (isLeap u.year) humon.1 hgt (by omega)
      omega
  have hday : t.day = u.day := by
    rw [hmon] at hyd
    omega
  cases t with
  | mk sec min hour day mon year =>
    cases u with
    | mk sec' min' hour' day' mon' year' =>
      dsimp only at *
      subst hyear hmon hday
      congr 1
      · omega
      · omega
      · omega

/-! ## The flag -/

/-- From March on a month begins a day later in a leap year. -/
theorem daysBefore_leap {mon : ℤ} (h1 : 1 ≤ mon) (h12 : mon ≤ 12) :
    daysBefore true mon = daysBefore false mon + if 3 ≤ mon then 1 else 0 := by
  have h : ∀ k ≤ 11, ((monthDays true).take k).sum =
      ((monthDays false).take k).sum + if 2 ≤ k then 1 else 0 := by
    decide
  unfold daysBefore
  rw [h (mon.toNat - 1) (by omega)]
  split_ifs
  all_goals omega

/-- The months of some seconds in both tables are one month that begins on one day up to February. -/
theorem months_eq {secs mon mon' : ℤ} (hmon : 1 ≤ mon ∧ mon ≤ 12) (hmon' : 1 ≤ mon' ∧ mon' ≤ 12)
    (hge : daysBefore true mon * 86400 ≤ secs)
    (hlt : secs < (daysBefore true mon + daysIn true mon) * 86400)
    (hge' : daysBefore false mon' * 86400 ≤ secs)
    (hlt' : secs < (daysBefore false mon' + daysIn false mon') * 86400) :
    mon = mon' ∧ daysBefore true mon = daysBefore false mon' ↔ ¬ 3 ≤ mon' := by
  have hleap := daysBefore_leap hmon.1 hmon.2
  constructor
  · rintro ⟨rfl, heq⟩ h3
    rw [if_pos h3] at hleap
    omega
  · intro h3
    have hmarch : daysBefore true 3 = 60 := rfl
    have hmarch' : daysBefore false 3 = 59 := rfl
    have hend := daysBefore_add_le false hmon'.1 (Int.not_le.mp h3) (by omega)
    have h3' : ¬ 3 ≤ mon := by
      intro h3'
      have hle : daysBefore true 3 ≤ daysBefore true mon := by
        rcases Int.lt_or_eq_of_le h3' with hlt3 | rfl
        · have hadd := daysBefore_add_le true (show 1 ≤ (3 : ℤ) by omega) hlt3 (by omega)
          have hin : daysIn true 3 = 31 := rfl
          omega
        · exact Int.le_refl _
      omega
    rw [if_neg h3', Int.add_zero] at hleap
    have hmons : mon = mon' := by
      rcases Int.lt_trichotomy mon mon' with hlt3 | heq | hgt
      · obtain rfl : mon = 1 := by omega
        have hadd := daysBefore_add_le false (le_refl (1 : ℤ)) hlt3 (by omega)
        have hin : daysIn true 1 = daysIn false 1 := rfl
        omega
      · exact heq
      · have hadd := daysBefore_add_le false hmon'.1 hgt (by omega)
        omega
    exact ⟨hmons, by rw [hleap, hmons]⟩

/-- In a year that is not a leap year the flag makes no difference up to February. -/
theorem fill_leap {year secs : ℤ} (old : AgooTime) (h0 : 0 ≤ secs) (hlt : secs < 365 * 86400) :
    fill year secs true old = fill year secs false old ↔ ¬ 3 ≤ (fill year secs false old).mon := by
  obtain ⟨mon, hmon, hmonth, hge, hend⟩ := monthOf_spec true h0 (show secs < 366 * 86400 by omega)
  obtain ⟨mon', hmon', hmonth', hge', hend'⟩ := monthOf_spec false h0 hlt
  obtain ⟨day, hour, min, sec, hfill, hrest, hday, hhour, hmin, hsec⟩ :=
    fill_fields year old hmonth (by omega)
  obtain ⟨day', hour', min', sec', hfill', hrest', hday', hhour', hmin', hsec'⟩ :=
    fill_fields year old hmonth' (by omega)
  have heq := months_eq hmon hmon' hge hend hge' hend'
  rw [hfill, hfill', ← heq]
  simp only [AgooTime.mk.injEq]
  constructor
  · rintro ⟨hs, hm, hh, hd, hmo, -⟩
    exact ⟨hmo, by omega⟩
  · rintro ⟨hmo, hbefore⟩
    have hd : day = day' := by omega
    have hh : hour = hour' := by omega
    have hm : min = min' := by omega
    exact ⟨by omega, hm, hh, by rw [hd], hmo, trivial⟩

/-! ## The whole conversion -/

/-- The seconds are cut into blocks of 400 years, also those before the year 0. -/
theorem agooSectime_eq (secs block rest : ℤ) (old : AgooTime) (hblock : -0x40000000 ≤ block)
    (h0 : 0 ≤ rest) (hlt : rest < secsPerQuadCent)
    (hsecs : secs + 62167219200 = block * secsPerQuadCent + rest) :
    agooSectime secs old =
      fill (toInt (block * 400 + (yearIn rest).1)) (yearIn rest).2.1 (yearIn rest).2.2 old := by
  unfold agooSectime
  dsimp only
  rw [hsecs]
  have hquad : secsPerQuadCent = 12622780800 := rfl
  rw [hquad] at hlt ⊢
  split_ifs with hneg
  · obtain ⟨hk0, hkle, hklt⟩ :=
      tdiv_bounds (a := -(block * 12622780800 + rest)) (b := 12622780800) (by omega) (by omega)
    generalize (-(block * 12622780800 + rest)).tdiv 12622780800 = k at *
    rw [toInt_of_int (x := k) (by omega) (by omega)]
    obtain ⟨hq0, hqle, hqlt⟩ := tdiv_bounds (a := block * 12622780800 + rest + (k + 1) * 12622780800)
      (b := 12622780800) (by omega) (by omega)
    generalize (block * 12622780800 + rest + (k + 1) * 12622780800).tdiv 12622780800 = q at *
    have hqk : q - (k + 1) = block := by omega
    have hrest : block * 12622780800 + rest + (k + 1) * 12622780800 - q * 12622780800 = rest := by omega
    rw [hqk, hrest]
  · rw [Int.zero_mul, Int.add_zero]
    obtain ⟨hq0, hqle, hqlt⟩ :=
      tdiv_bounds (a := block * 12622780800 + rest) (b := 12622780800) (by omega) (by omega)
    generalize (block * 12622780800 + rest).tdiv 12622780800 = q at *
    have hqk : q - 0 = block := by omega
    have hrest : block * 12622780800 + rest - q * 12622780800 = rest := by omega
    rw [hqk, hrest]

/-- **For every second: the time is the one of the calendar if and only if that is not in March or later
in one of the three years behind the first of a block of 400.** -/
theorem sectime_iff (secs : ℤ) (old : AgooTime) :
    ∃ t : AgooTime, (t.Valid ∧ t.seconds = secs) ∧
      (∀ u : AgooTime, u.Valid → u.seconds = secs → u = t) ∧
        (t.IntYear → (agooSectime secs old = t ↔ ¬ t.BehindLeap)) := by
  have hquad : secsPerQuadCent = 12622780800 := rfl
  obtain ⟨block, rest, hsecs, h0, hlt⟩ : ∃ block rest : ℤ,
      secs + 62167219200 = block * secsPerQuadCent + rest ∧ 0 ≤ rest ∧ rest < secsPerQuadCent := by
    rw [hquad]
    exact ⟨(secs + 62167219200) / 12622780800, (secs + 62167219200) % 12622780800, by omega, by omega, by omega⟩
  have hfound := yearIn_found h0 hlt
  have heq := agooSectime_eq secs block rest old
  generalize yearIn rest = r at hfound heq
  obtain ⟨year, ysecs, leap⟩ := r
  obtain ⟨hyear, hysecs, hrest, hleap⟩ := hfound
  dsimp only at *
  have hisLeap := isLeap_block block year
  have hvalid := fill_valid (block * 400 + year) old hysecs.1 (by rw [hisLeap]; exact hysecs.2)
  have hseconds : (yearStart (block * 400 + year) - 719162) * 86400 + ysecs = secs := by
    rw [hquad] at hsecs
    rw [yearStart_block]
    omega
  rw [hseconds] at hvalid
  refine ⟨_, hvalid, fun u hu hus => Valid.unique hu hvalid.1 (hus.trans hvalid.2.symm), fun hint => ?_⟩
  obtain ⟨hlow, hhigh⟩ : -0x80000000 ≤ block * 400 + year ∧ block * 400 + year < 0x80000000 := hint
  rw [heq (by omega) h0 hlt hsecs, toInt_of_int hlow hhigh, hisLeap]
  have hyear400 : (fill (block * 400 + year) ysecs (isLeap year) old).year = block * 400 + year := rfl
  unfold AgooTime.BehindLeap
  rw [hyear400]
  by_cases hbehind : year = 1 ∨ year = 2 ∨ year = 3
  · have hnot : isLeap year = false := by
      rw [Bool.eq_false_iff, Ne, isLeap_iff]
      omega
    have hset : leap = true := hleap.mpr (Or.inr hbehind)
    rw [hnot] at hysecs ⊢
    rw [hset, fill_leap old hysecs.1 hysecs.2]
    omega
  · have hset : leap = isLeap year := by
      rw [Bool.eq_iff_iff, hleap]
      exact ⟨fun h => h.resolve_right hbehind, Or.inl⟩
    rw [hset]
    refine iff_of_true rfl ?_
    omega

/-- The first of March 2001 is said to be the 29th of February. -/
theorem sectime_march : ¬ ∀ (secs : ℤ) (old t : AgooTime), t.Valid → t.seconds = secs → t.IntYear →
    agooSectime secs old = t := by
  intro h
  have hmarch := h 983404800 ⟨0, 0, 0, 1, 1, 0⟩ ⟨0, 0, 0, 1, 3, 2001⟩
    ⟨by decide, by decide, by decide, by decide, by decide⟩ rfl ⟨by decide, by decide⟩
  exact absurd hmarch (by decide)

end SecTime

end Agoo
