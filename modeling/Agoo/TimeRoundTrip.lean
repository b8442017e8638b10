import Agoo.ConversionExact
import Mathlib.Data.Nat.Digits.Defs

/-!
# Times printed and parsed

`timeToText` prints a second of the calendar and the digits of a fraction, without their sign. The parser
subtracts the fraction before 1970, so that only the fractions of the second before it are lost, and the days
that `agooSectime` is behind are read as they were printed (`time_round_trip_iff`).
-/

namespace Agoo

namespace Convert

open SecTime

/-! ## The law -/

/-- A text in quotes. -/
def quoted (p : Bytes) : Bytes := bytes "\"" ++ p ++ bytes "\""

/-- `time_to_text`. -/
def timeToText (junk : AgooTime) (tt : ℤ) : Bytes := quoted (timeText junk tt)

/-- A printed time is parsed as it was, and a time becomes the String that is printed. -/
structure Survives (env : Env) (t : ℤ) : Prop where
  parsed : ∃ p, timeToText env.junk t = quoted p ∧ timeParse p (-1) = some t
  converted : ∀ m : Memory, m.cell.type = .core .time → m.cell.time = t →
    (gqlValueConvert env m (.value (.core .string))).err = none →
      (gqlValueConvert env m (.value (.core .string))).cell.type = .core .string ∧
        quoted (text env (gqlValueConvert env m (.value (.core .string))).toMemory) = timeToText env.junk t

/-- From 2 March to the end of the year, in 2001, 2002 or 2003. -/
def LeapBlind (secs : ℤ) : Prop :=
  ∃ year ∈ [2001, 2002, 2003], AgooTime.seconds ⟨0, 0, 0, 2, 3, year⟩ ≤ secs ∧
    secs < AgooTime.seconds ⟨0, 0, 0, 1, 1, year + 1⟩

instance (secs : ℤ) : Decidable (LeapBlind secs) :=
  inferInstanceAs (Decidable (∃ year ∈ [2001, 2002, 2003], _ ∧ _))

theorem leapBlind_iff {secs : ℤ} : LeapBlind secs ↔
    983491200 ≤ secs ∧ secs < 1009843200 ∨ 1015027200 ≤ secs ∧ secs < 1041379200 ∨
      1046563200 ≤ secs ∧ secs < 1072915200 := by
  unfold LeapBlind
  simp only [List.mem_cons, List.not_mem_nil, or_false, exists_eq_or_imp, exists_eq_left]
  rfl

/-! ## Digits -/

theorem digitsVal_zeros (k : ℕ) (ds : Bytes) :
    digitsVal (List.replicate k (chr '0') ++ ds) = digitsVal ds := by
  induction k with
  | zero => rfl
  | succ k ih => exact ih

/-- A number that is filled up with zeros. -/
theorem zeroPadded_digits {w n : ℕ} (hw : 0 < w) (h : n < 10 ^ w) :
    ∃ d : Digits w, d.1 = zeroPadded w n ∧ d.num = n := by
  have hlen : (decimal n).length ≤ w := by
    unfold decimal
    rw [List.length_map]
    exact Nat.toDigits_length 10 n w hw h
  have hpad : zeroPadded w n = List.replicate (w - (decimal n).length) (chr '0') ++ decimal n := by
    unfold zeroPadded
    dsimp only
    rw [if_neg (by omega)]
    rfl
  refine ⟨⟨zeroPadded w n, ?_, ?_⟩, rfl, ?_⟩
  · rw [hpad, List.length_append, List.length_replicate]
    omega
  · rw [hpad]
    intro c hc
    rcases List.mem_append.mp hc with hc | hc
    · rw [List.eq_of_mem_replicate hc]
      rfl
    · exact isDigit_decimal hc
  · change digitsVal (zeroPadded w n) = n
    rw [hpad, digitsVal_zeros]
    exact foldl_decimal n

/-! ## Printed fields -/

/-- Fields that have no more digits than they are printed with. -/
structure Printable (t : AgooTime) : Prop where
  year : 0 ≤ t.year ∧ t.year < 10000
  mon : 1 ≤ t.mon ∧ t.mon ≤ 12
  day : 0 ≤ t.day ∧ t.day < 100
  hour : 0 ≤ t.hour ∧ t.hour < 24
  min : 0 ≤ t.min ∧ t.min < 60
  sec : 0 ≤ t.sec ∧ t.sec < 60

/-- The text of some fields and nanoseconds. -/
def fieldsText (t : AgooTime) (nsecs : ℤ) : Bytes :=
  zeroPadded 4 t.year ++ bytes "-" ++ zeroPadded 2 t.mon ++ bytes "-" ++ zeroPadded 2 t.day ++
    bytes "T" ++ zeroPadded 2 t.hour ++ bytes ":" ++ zeroPadded 2 t.min ++ bytes ":" ++
      zeroPadded 2 t.sec ++ bytes "." ++ zeroPadded 9 nsecs ++ bytes "Z"

/-- The text of printable fields is a time text, and what the parser makes of it. -/
theorem fieldsText_parsed {t : AgooTime} {n : ℕ} (h : Printable t) (hn : n < 1000000000) :
    ∃ text : TimeText, text.text = fieldsText t n ∧ (fieldsText t n).length = 30 ∧
      timeParse (fieldsText t n) (-1) = some (lastNanos t.seconds n) := by
  obtain ⟨sec, min, hour, day, mon, year⟩ := t
  obtain ⟨⟨hyear0, hyear⟩, ⟨hmon1, hmon⟩, ⟨hday0, hday⟩, ⟨hhour0, hhour⟩, ⟨hmin0, hmin⟩, hsec0, hsec⟩ := h
  dsimp only at *
  have hseconds := timegm_eq ⟨sec, min, hour, day, mon, year⟩ ⟨hmon1, hmon⟩
  lift year to ℕ using hyear0
  lift mon to ℕ using by omega
  lift day to ℕ using hday0
  lift hour to ℕ using hhour0
  lift min to ℕ using hmin0
  lift sec to ℕ using hsec0
  obtain ⟨yearDigits, hyearText, hyearNum⟩ := zeroPadded_digits (w := 4) (n := year) (by decide) (by omega)
  obtain ⟨monDigits, hmonText, hmonNum⟩ := zeroPadded_digits (w := 2) (n := mon) (by decide) (by omega)
  obtain ⟨dayDigits, hdayText, hdayNum⟩ := zeroPadded_digits (w := 2) (n := day) (by decide) (by omega)
  obtain ⟨hourDigits, hhourText, hhourNum⟩ := zeroPadded_digits (w := 2) (n := hour) (by decide) (by omega)
  obtain ⟨minDigits, hminText, hminNum⟩ := zeroPadded_digits (w := 2) (n := min) (by decide) (by omega)
  obtain ⟨secDigits, hsecText, hsecNum⟩ := zeroPadded_digits (w := 2) (n := sec) (by decide) (by omega)
  obtain ⟨fracDigits, hfracText, hfracNum⟩ := zeroPadded_digits (w := 9) (n := n) (by decide) (by omega)
  let frac : Fraction := ⟨fracDigits.1, fracDigits.2.1.le, fracDigits.2.2⟩
  have hnanos : frac.nanos = n := by
    change digitsVal fracDigits.1 * 10 ^ (9 - fracDigits.1.length) = n
    rw [fracDigits.2.1, ← hfracNum]
    exact Nat.mul_one _
  let text : TimeText :=
    ⟨⟨false, yearDigits, monDigits, dayDigits⟩, .clock ⟨hourDigits, minDigits, secDigits, some frac, .zulu⟩⟩
  have htext : text.text = fieldsText ⟨sec, min, hour, day, mon, year⟩ n := by
    simp only [text, frac, TimeText.text, DateText.text, RestText.text, ClockText.text, clockDigits, fracText,
      EndText.text, fieldsText, hyearText, hmonText, hdayText, hhourText, hminText, hsecText, hfracText]
    simp
  refine ⟨text, htext, ?_, ?_⟩
  · unfold fieldsText
    simp only [List.length_append, ← hyearText, ← hmonText, ← hdayText, ← hhourText, ← hminText, ← hsecText,
      ← hfracText, yearDigits.2.1, monDigits.2.1, dayDigits.2.1, hourDigits.2.1, minDigits.2.1, secDigits.2.1,
      fracDigits.2.1]
    rfl
  · rw [← htext, timeParse_text]
    change some (lastNanos (timegm ⟨((yearDigits.num : ℕ) : ℤ) - 1900, ((monDigits.num : ℕ) : ℤ) - 1,
      (dayDigits.num : ℕ), (hourDigits.num : ℕ), (minDigits.num : ℕ), (secDigits.num : ℕ)⟩) frac.nanos) = _
    rw [hyearNum, hmonNum, hdayNum, hhourNum, hminNum, hsecNum, hnanos, hseconds]

/-! ## Printed times -/

theorem sectime_block (secs : ℤ) (h : -11676096000 ≤ secs ∧ secs < 13569465600) (old : AgooTime) :
    ∃ block rest : ℤ, (block = 4 ∨ block = 5) ∧ secs + 62167219200 = block * secsPerQuadCent + rest ∧
      agooSectime secs old =
        fill (toInt (block * 400 + (yearIn rest).1)) (yearIn rest).2.1 (yearIn rest).2.2 old ∧
          Found rest (yearIn rest) := by
  have hquad : secsPerQuadCent = 12622780800 := rfl
  have hcut := agooSectime_eq secs ((secs + 62167219200) / 12622780800) ((secs + 62167219200) % 12622780800) old
    (by omega) (by omega) (by omega) (by rw [hquad]; omega)
  refine ⟨_, _, ?_, ?_, hcut, yearIn_found (by omega) (by omega)⟩
  · omega
  · rw [hquad]
    omega

theorem daysIn_le (leap : Bool) {mon : ℤ} (h : 1 ≤ mon ∧ mon ≤ 12) : daysIn leap mon ≤ 31 := by
  have hle : ∀ leap, ∀ k < 12, (monthDays leap).getD k 0 ≤ 31 := by decide
  exact hle leap (mon.toNat - 1) (by omega)

/-- With a month of one of the tables, the fields are those of a day of the year. -/
theorem fill_printed {year ysecs : ℤ} {leap : Bool} (old : AgooTime) (hyear : 0 ≤ year ∧ year < 10000)
    (h0 : 0 ≤ ysecs) (hlt : ysecs < yearDays leap * 86400) :
    Printable (fill year ysecs leap old) ∧ ∃ mon, (1 ≤ mon ∧ mon ≤ 12) ∧
      (daysBefore leap mon * 86400 ≤ ysecs ∧ ysecs < (daysBefore leap mon + daysIn leap mon) * 86400) ∧
      (fill year ysecs leap old).seconds = (yearStart year - 719162) * 86400 + ysecs -
        (daysBefore leap mon - daysBefore (isLeap year) mon) * 86400 := by
  obtain ⟨mon, hmon, hmonth, hge, hend⟩ := monthOf_spec leap h0 hlt
  obtain ⟨day, hour, min, sec, hfill, hday, hday0, hhour, hmin, hsec⟩ := fill_fields year old hmonth (by omega)
  have hin := daysIn_le leap hmon
  rw [hfill]
  refine ⟨⟨hyear, hmon, by dsimp only; omega, hhour, hmin, hsec⟩, mon, hmon, ⟨hge, hend⟩, ?_⟩
  unfold AgooTime.seconds AgooTime.yearDay
  dsimp only
  omega

/-- From 1 March on the table of leap years is a day ahead. -/
theorem leap_month {ysecs mon : ℤ} (hmon : 1 ≤ mon ∧ mon ≤ 12) (hge : daysBefore true mon * 86400 ≤ ysecs)
    (hlt : ysecs < (daysBefore true mon + daysIn true mon) * 86400) :
    daysBefore true mon - daysBefore false mon = if 60 * 86400 ≤ ysecs then 1 else 0 := by
  have hleap := daysBefore_leap hmon.1 hmon.2
  have hmarch : daysBefore true 3 = 60 := rfl
  by_cases h3 : 3 ≤ mon
  · rw [if_pos h3] at hleap
    have hle : daysBefore true 3 ≤ daysBefore true mon := by
      rcases Int.lt_or_eq_of_le h3 with hlt3 | rfl
      · have hadd := daysBefore_add_le true (show 1 ≤ (3 : ℤ) by omega) hlt3 (by omega)
        have hin : daysIn true 3 = 31 := rfl
        omega
      · exact Int.le_refl _
    rw [if_pos (by omega)]
    omega
  · rw [if_neg h3] at hleap
    have hend := daysBefore_add_le true hmon.1 (Int.not_le.mp h3) (by omega)
    rw [if_neg (by omega)]
    omega

/-- What is printed for a second, and the second that it stands for. -/
theorem agooSectime_printed {secs : ℤ} (h : -9223372036 ≤ secs ∧ secs ≤ 9223372036) (old : AgooTime) :
    Printable (agooSectime secs old) ∧
      (agooSectime secs old).seconds = if LeapBlind secs then secs - 86400 else secs := by
  obtain ⟨block, rest, hblock, hsecs, heq, hfound⟩ := sectime_block secs ⟨by omega, by omega⟩ old
  generalize yearIn rest = r at heq hfound
  obtain ⟨year, ysecs, leap⟩ := r
  obtain ⟨hyear, hysecs, hrest, hleap⟩ := hfound
  dsimp only at *
  have hquad : secsPerQuadCent = 12622780800 := rfl
  have hstart := yearStart_block block year
  have hisLeap := isLeap_block block year
  have hseconds : secs = (yearStart (block * 400 + year) - 719162) * 86400 + ysecs := by
    rw [hquad] at hsecs
    omega
  rw [heq, toInt_of_int (by omega) (by omega)]
  rw [← hisLeap] at hysecs hleap
  by_cases hbehind : year = 1 ∨ year = 2 ∨ year = 3
  · have hnot : isLeap (block * 400 + year) = false := by
      rw [Bool.eq_false_iff, Ne, isLeap_iff]
      omega
    obtain rfl : leap = true := hleap.mpr (.inr hbehind)
    rw [hnot] at hysecs
    have hyears : yearDays false = 365 := rfl
    have hleaps : yearDays true = 366 := rfl
    obtain ⟨hprint, mon, hmon, hmonth, hval⟩ :=
      @fill_printed (block * 400 + year) ysecs true old (by omega) hysecs.1 (by omega)
    refine ⟨hprint, ?_⟩
    have hblind : LeapBlind secs ↔ 60 * 86400 ≤ ysecs := by
      have hfirst : yearStart 1 = 0 := rfl
      have hsecond : yearStart 2 = 365 := rfl
      have hthird : yearStart 3 = 730 := rfl
      rw [leapBlind_iff]
      rcases hbehind with rfl | rfl | rfl
      all_goals omega
    rw [hval, hnot, leap_month hmon hmonth.1 hmonth.2, ← hseconds]
    simp only [hblind]
    split_ifs
    · omega
    · omega
  · have hset : leap = isLeap (block * 400 + year) := by
      rw [Bool.eq_iff_iff, hleap]
      exact ⟨fun h => h.resolve_right hbehind, .inl⟩
    obtain ⟨hprint, mon, -, -, hval⟩ :=
      @fill_printed (block * 400 + year) ysecs leap old (by omega) hysecs.1 (by rw [hset]; exact hysecs.2)
    refine ⟨hprint, ?_⟩
    have hsharp : ¬ LeapBlind secs := by
      rw [leapBlind_iff]
      rw [hset] at hleap
      have hnext := yearStart_next (block * 400 + year)
      rcases lt_or_ge 2000 (block * 400 + year) with hafter | hbefore
      · have hle := yearStart_le (show 2004 ≤ block * 400 + year by omega)
        have hyear2004 : yearStart 2004 = 731580 := rfl
        omega
      · have hle := yearStart_le (show block * 400 + year + 1 ≤ 2001 by omega)
        have hyear2001 : yearStart 2001 = 730485 := rfl
        omega
    rw [hval, hset, Int.sub_self, ← hseconds, if_neg hsharp]
    omega

/-- The second that is read of a printed one. -/
def secondRead (secs : ℤ) : ℤ := if LeapBlind secs then secs - 86400 else secs

/-- The second of a time, towards 1970. -/
theorem tdiv_second (t : ℤ) : 0 ≤ t ∧ t.tdiv 1000000000 = t / 1000000000 ∨
    t < 0 ∧ t.tdiv 1000000000 = -(-t / 1000000000) := by
  rcases lt_or_ge t 0 with hneg | hpos
  · refine .inr ⟨hneg, ?_⟩
    rw [← Int.tdiv_eq_ediv_of_nonneg (by omega), Int.neg_tdiv, Int.neg_neg]
  · exact .inl ⟨hpos, Int.tdiv_eq_ediv_of_nonneg hpos⟩

/-- What the parser makes of a printed time. -/
theorem timeText_parsed {t : ℤ} (h : GqlValue.FitsI64 t) (junk : AgooTime) :
    0 ∉ timeText junk t ∧ (timeText junk t).length = 30 ∧ timeParse (timeText junk t) (-1) =
      some (lastNanos (secondRead (t.tdiv 1000000000)) (t - t.tdiv 1000000000 * 1000000000).natAbs) := by
  obtain ⟨hlow, hhigh⟩ := h
  have hsecond := tdiv_second t
  have htext : timeText junk t = fieldsText (agooSectime (t.tdiv 1000000000) junk)
      (t - t.tdiv 1000000000 * 1000000000).natAbs := by
    have habs : (if t - t.tdiv 1000000000 * 1000000000 < 0 then -(t - t.tdiv 1000000000 * 1000000000)
        else t - t.tdiv 1000000000 * 1000000000) = ((t - t.tdiv 1000000000 * 1000000000).natAbs : ℤ) := by
      split_ifs
      · omega
      · omega
    rw [← habs]
    rfl
  generalize t.tdiv 1000000000 = secs at *
  obtain ⟨hprint, hseconds⟩ := agooSectime_printed (show -9223372036 ≤ secs ∧ secs ≤ 9223372036 by omega) junk
  obtain ⟨text, heq, hlen, hparse⟩ := fieldsText_parsed hprint
    (show (t - secs * 1000000000).natAbs < 1000000000 by omega)
  rw [htext]
  refine ⟨?_, hlen, ?_⟩
  · rw [← heq]
    exact text.zero_not_mem
  · rw [hparse, hseconds]
    rfl

/-- What is read of a printed time. -/
theorem lastNanos_printed {t : ℤ} (h : GqlValue.FitsI64 t) :
    lastNanos (secondRead (t.tdiv 1000000000)) (t - t.tdiv 1000000000 * 1000000000).natAbs = t ↔
      ¬ (-1000000000 < t ∧ t < 0) ∧ ¬ LeapBlind (t.tdiv 1000000000) := by
  obtain ⟨hlow, hhigh⟩ := h
  have hsecond := tdiv_second t
  have hlast : ∀ {s : ℤ} {n : ℕ}, GqlValue.FitsI64 (s * 1000000000) → GqlValue.FitsI64 (s * 1000000000 + n) →
      GqlValue.FitsI64 (s * 1000000000 - n) →
      lastNanos s n = if 0 ≤ s then s * 1000000000 + n else s * 1000000000 - n := by
    intro s n hs hadd hsub
    unfold lastNanos nanos
    rw [Json.wrap64_of_fits hs, Json.wrap64_of_fits hadd, Json.wrap64_of_fits hsub]
    have hsign : 0 ≤ s * 1000000000 ↔ 0 ≤ s := by omega
    simp only [hsign]
  unfold GqlValue.FitsI64 at hlast
  by_cases hblind : LeapBlind (t.tdiv 1000000000)
  · refine iff_of_false ?_ fun h => h.2 hblind
    rw [secondRead, if_pos hblind]
    rw [leapBlind_iff] at hblind
    generalize t.tdiv 1000000000 = secs at *
    rw [hlast (by omega) (by omega) (by omega), if_pos (by omega)]
    omega
  · rw [secondRead, if_neg hblind]
    simp only [hblind, not_false_eq_true, and_true]
    generalize t.tdiv 1000000000 = secs at *
    rw [hlast (by omega) (by omega) (by omega)]
    split_ifs
    · omega
    · omega

/-- A time becomes the String that is printed, if memory is not out. -/
theorem convert_time (env : Env) {m : Memory} (htype : m.cell.type = .core .time)
    (hfits : GqlValue.FitsI64 m.cell.time)
    (hok : (gqlValueConvert env m (.value (.core .string))).err = none) :
    (gqlValueConvert env m (.value (.core .string))).cell.type = .core .string ∧
      text env (gqlValueConvert env m (.value (.core .string))).toMemory = timeText env.junk m.cell.time := by
  obtain ⟨h0, hlen, -⟩ := timeText_parsed hfits env.junk
  have hset : gqlValueConvert env m (.value (.core .string)) =
      gqlStringSet env m (timeText env.junk m.cell.time) := by
    have hbase : (TargetType.value (.core .string)).base = .value (.core .string) := rfl
    unfold gqlValueConvert
    rw [hbase, htype, if_neg (by decide)]
    change convertToString env m = _
    unfold convertToString
    rw [htype]
    rfl
  rw [hset] at hok ⊢
  refine (gqlStringSet_exact h0).mpr (fun hshort => ?_) hok
  rw [hlen] at hshort
  exact absurd hshort (by decide)

/-- **For every `int64_t`: the time that is printed is parsed as it was, and is the String that it is converted
to, if and only if it is not in the second before 1970, nor from 2 March to the end of 2001, 2002 or 2003.** -/
theorem time_round_trip_iff (env : Env) {t : ℤ} (h : GqlValue.FitsI64 t) :
    Survives env t ↔ ¬ (-1000000000 < t ∧ t < 0) ∧ ¬ LeapBlind (t.tdiv 1000000000) := by
  obtain ⟨-, -, hparse⟩ := timeText_parsed h env.junk
  rw [← lastNanos_printed h]
  constructor
  · rintro ⟨⟨p, hp, hsome⟩, -⟩
    have hunquoted : timeText env.junk t = p := by
      have := List.append_cancel_right hp
      exact List.append_cancel_left this
    rw [← hunquoted, hparse] at hsome
    exact Option.some.inj hsome
  · intro heq
    refine ⟨⟨timeText env.junk t, rfl, by rw [hparse, heq]⟩, ?_⟩
    rintro m htype rfl hok
    obtain ⟨hstring, htext⟩ := convert_time env htype h hok
    exact ⟨hstring, by rw [htext]; rfl⟩

/-- The first second of 1970 survives. -/
theorem time_round_trip_zero : GqlValue.FitsI64 0 ∧
    (Survives bareEnv 0 ↔ ¬ (-1000000000 < (0 : ℤ) ∧ (0 : ℤ) < 0) ∧ ¬ LeapBlind ((0 : ℤ).tdiv 1000000000)) :=
  ⟨by decide, time_round_trip_iff bareEnv (by decide)⟩

/-- Half a second before 1970 is printed as half a second behind it. -/
theorem half_second_moved : ¬ Survives bareEnv (-500000000) := by
  rintro ⟨⟨p, hp, hsome⟩, -⟩
  have hunquoted : timeText bareEnv.junk (-500000000) = p :=
    List.append_cancel_left (List.append_cancel_right hp)
  rw [← hunquoted] at hsome
  exact absurd hsome (by decide +kernel)

end Convert

end Agoo
