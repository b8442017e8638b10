import Agoo.Log
import Agoo.TimeRoundTrip

/-!
# The day of a log line (`classic_write`)

A line begins with the local time of its entry. The text of the day is kept, with the seconds at which that day
begins and ends. `classicLog_lines`: each line has the day and the time that `agoo_sectime` gives for its entry.
-/

namespace Agoo

namespace DayCache

open SecTime (AgooTime agooSectime)
open Agoo.Convert (zeroPadded)

/-! ## The code -/

/-- `struct _agooLogEntry`: what `classic_write` reads of it. -/
structure Entry where
  cat : Log.AgooLogCat
  when : Int64
  whatp : Option Bytes
  what : Bytes
  tidp : Option Bytes
  tid : Bytes

/-- What `agoo_log` knows of a day. -/
structure Days where
  dayStart : ℤ
  dayEnd : ℤ
  dayBuf : Bytes

/-- `agoo_log_init`. -/
def Days.init : Days := ⟨0, 0, []⟩

def levelChars : Bytes := [chr 'F', chr 'E', chr 'W', chr 'I', chr 'D', chr '?']

def resetColor : Bytes := 27 :: bytes "[0m"

variable (junk : AgooTime) (zone : Int32) (colorize : Bool)

/-- The time of an entry, with the zone. -/
def Entry.localTime (e : Entry) : ℤ := e.when.toInt.tdiv 1000000000 + zone.toInt

/-- `"%04d/%02d/%02d "`. -/
def dayText (fields : AgooTime) : Bytes :=
  zeroPadded 4 fields.year ++ bytes "/" ++ zeroPadded 2 fields.mon ++ bytes "/" ++ zeroPadded 2 fields.day ++
    bytes " "

/-- What is printed of an entry, with a day and a time of day. -/
def lineText (e : Entry) (dayBuf : Bytes) (hour min sec : ℤ) : Bytes :=
  let frac := e.when.toInt.tmod 1000000000
  let start := [at0 levelChars e.cat.level] ++ bytes " " ++ dayBuf ++ zeroPadded 2 hour ++ bytes ":" ++
    zeroPadded 2 min ++ bytes ":" ++ zeroPadded 2 sec ++ bytes "." ++ zeroPadded 9 frac ++ bytes " "
  let tid := if e.tidp = none ∧ e.tid = [] then [] else bytes "[" ++ e.tidp.getD e.tid ++ bytes "] "
  let rest := tid ++ e.cat.label ++ bytes ": " ++ e.whatp.getD e.what
  if colorize then e.cat.color ++ start ++ rest ++ resetColor ++ bytes "\n" else start ++ rest ++ bytes "\n"

/-- `classic_write`: what is printed, and what is known of the day afterwards. -/
def classicWrite (d : Days) (e : Entry) : Bytes × Days :=
  let t := e.localTime zone
  if d.dayStart ≤ t ∧ t < d.dayEnd then
    let t := t - d.dayStart
    (lineText colorize e d.dayBuf (t.tdiv 3600) ((t.tmod 3600).tdiv 60) (t.tmod 60), d)
  else
    let fields := agooSectime t junk
    let start := t - (fields.hour * 3600 + fields.min * 60 + fields.sec)
    let d := ⟨start, start + 86400, dayText fields⟩
    (lineText colorize e d.dayBuf fields.hour fields.min fields.sec, d)

/-- The lines of some entries, one after the other. -/
def classicLog (d : Days) : List Entry → List Bytes
  | [] => []
  | e :: es =>
    let (line, d) := classicWrite junk zone colorize d e
    line :: classicLog d es

/-- The line of an entry with the fields of `agoo_sectime`. -/
def fieldsLine (old : AgooTime) (e : Entry) : Bytes :=
  let t := agooSectime (e.localTime zone) old
  lineText colorize e (dayText t) t.hour t.min t.sec

/-! ## Days -/

/-- A time of day, in seconds of the day. -/
structure Clock (secs hour min sec : ℤ) : Prop where
  hours : 0 ≤ hour ∧ hour < 24
  minutes : 0 ≤ min ∧ min < 60
  seconds : 0 ≤ sec ∧ sec < 60
  eq : secs = hour * 3600 + min * 60 + sec

/-- Some seconds have one time of day. -/
theorem Clock.read {secs hour min sec : ℤ} (h : Clock secs hour min sec) :
    secs.tdiv 3600 = hour ∧ (secs.tmod 3600).tdiv 60 = min ∧ secs.tmod 60 = sec := by
  obtain ⟨hhour, hmin, hsec, hsecs⟩ := h
  have hmod : 0 ≤ secs % 3600 := by omega
  rw [Int.tdiv_eq_ediv_of_nonneg (by omega), Int.tmod_eq_emod_of_nonneg (by omega),
    Int.tmod_eq_emod_of_nonneg (by omega), Int.tdiv_eq_ediv_of_nonneg hmod]
  omega

open SecTime in
/-- Two numbers of seconds of one day are in one year. -/
theorem found_day {s t : ℤ} {r q : ℤ × ℤ × Bool} (hs : Found s r) (ht : Found t q)
    (hday : s / 86400 = t / 86400) : r.1 = q.1 ∧ r.2.2 = q.2.2 ∧ r.2.1 - s = q.2.1 - t := by
  obtain ⟨y, ys, leap⟩ := r
  obtain ⟨y', ys', leap'⟩ := q
  obtain ⟨hyear, hrest, hsecs, hleap⟩ := hs
  obtain ⟨hyear', hrest', hsecs', hleap'⟩ := ht
  dsimp only at *
  have hnext := yearStart_next y
  have hnext' := yearStart_next y'
  have hsame : y = y' := by
    rcases Int.lt_trichotomy y y' with hlt | heq | hgt
    · have hle := yearStart_le (Int.add_one_le_of_lt hlt)
      omega
    · exact heq
    · have hle := yearStart_le (Int.add_one_le_of_lt hgt)
      omega
  subst hsame
  refine ⟨rfl, ?_, by omega⟩
  rw [Bool.eq_iff_iff, hleap, hleap']

open SecTime in
/-- The seconds of a year fit the table of its flag. -/
theorem found_lt {s : ℤ} {r : ℤ × ℤ × Bool} (h : Found s r) : r.2.1 < yearDays r.2.2 * 86400 := by
  have hlt := h.rest.2
  have hleap : isLeap r.1 = true → r.2.2 = true := fun hl => h.leap.mpr (.inl hl)
  unfold yearDays at hlt ⊢
  split_ifs at hlt ⊢ with hflag hl hl
  · exact hlt
  · omega
  · exact absurd (hleap hl) hflag
  · exact hlt

open SecTime in
/-- Two numbers of seconds of one day are in one month. -/
theorem month_day {leap : Bool} {s t mon mon' : ℤ} (hmon : 1 ≤ mon ∧ mon ≤ 12) (hmon' : 1 ≤ mon' ∧ mon' ≤ 12)
    (hge : daysBefore leap mon * 86400 ≤ s) (hlt : s < (daysBefore leap mon + daysIn leap mon) * 86400)
    (hge' : daysBefore leap mon' * 86400 ≤ t) (hlt' : t < (daysBefore leap mon' + daysIn leap mon') * 86400)
    (hday : s / 86400 = t / 86400) : mon = mon' := by
  rcases Int.lt_trichotomy mon mon' with hless | heq | hgreater
  · have hle := daysBefore_add_le leap hmon.1 hless (by omega)
    omega
  · exact heq
  · have hle := daysBefore_add_le leap hmon'.1 hgreater (by omega)
    omega

open SecTime in
/-- **The seconds of a day have one date and the time of the day.** -/
theorem sectime_day {secs : ℤ} (h : -62167219200 ≤ secs) : ∃ year mon day, ∀ t old, t / 86400 = secs / 86400 →
    ∃ hour min sec, agooSectime t old = ⟨sec, min, hour, day, mon, year⟩ ∧ Clock (t % 86400) hour min sec := by
  have hquad : secsPerQuadCent = 12622780800 := rfl
  -- the block of 400 years, and what is left
  obtain ⟨block, rest, hblock, h0, hlt, hsecs⟩ : ∃ block rest : ℤ, 0 ≤ block ∧ 0 ≤ rest ∧ rest < 12622780800 ∧
      secs + 62167219200 = block * 12622780800 + rest :=
    ⟨(secs + 62167219200) / 12622780800, (secs + 62167219200) % 12622780800,
      by omega, by omega, by omega, by omega⟩
  have hfound := yearIn_found h0 (hquad ▸ hlt)
  generalize yearIn rest = r at hfound
  obtain ⟨mon, hmon, -, hge, hend⟩ := monthOf_spec r.2.2 hfound.rest.1 (found_lt hfound)
  refine ⟨toInt (block * 400 + r.1), mon, r.2.1 / 86400 - daysBefore r.2.2 mon + 1, fun t old hday => ?_⟩
  have hfound' : Found (rest + (t - secs)) (yearIn (rest + (t - secs))) :=
    yearIn_found (by omega) (by rw [hquad]; omega)
  have heq := agooSectime_eq t block (rest + (t - secs)) old (by omega) (by omega) (by rw [hquad]; omega)
    (by rw [hquad]; omega)
  generalize yearIn (rest + (t - secs)) = q at hfound' heq
  obtain ⟨hyear, hleap, hrest⟩ := found_day hfound hfound' (by omega)
  obtain ⟨mon', hmon', hmonth, hge', hend'⟩ := monthOf_spec q.2.2 hfound'.rest.1 (found_lt hfound')
  have hsec := hfound.secs
  have hsec' := hfound'.secs
  rw [← hyear] at hsec'
  rw [← hleap] at hge' hend'
  obtain rfl := month_day hmon hmon' hge hend hge' hend' (by omega)
  obtain ⟨day, hour, min, sec, hfill, hfields, hday0, hhour, hmin, hsec0⟩ :=
    fill_fields (toInt (block * 400 + q.1)) old hmonth (by rw [← hleap]; omega)
  rw [← hleap] at hfields
  refine ⟨hour, min, sec, ?_, hhour, hmin, hsec0, by omega⟩
  rw [heq, hfill, hyear]
  congr 1
  omega

/-- The years of entries are from 1609 to 2330. -/
theorem localTime_range (e : Entry) : -11370855684 ≤ e.localTime zone ∧ e.localTime zone < 11370855684 := by
  have hwhen := e.when.le_toInt
  have hwhen' := e.when.toInt_lt
  have hzone := zone.le_toInt
  have hzone' := zone.toInt_lt
  have hsecs := Agoo.Convert.tdiv_second e.when.toInt
  unfold Entry.localTime
  omega

theorem length_zeroPadded {w n : ℕ} (hw : 0 < w) (h : n < 10 ^ w) : (zeroPadded w n).length = w := by
  obtain ⟨d, hd, -⟩ := Agoo.Convert.zeroPadded_digits hw h
  rw [← hd]
  exact d.2.1

open SecTime in
/-- The text of a day fits the 16 bytes of `day_buf`. -/
theorem length_dayText (e : Entry) (old : AgooTime) :
    (dayText (agooSectime (e.localTime zone) old)).length = 11 := by
  have hrange := localTime_range zone e
  obtain ⟨block, rest, hblock, -, heq, hfound⟩ :=
    Agoo.Convert.sectime_block (e.localTime zone) ⟨by omega, by omega⟩ old
  have hyear := hfound.year
  have hyears : 0 ≤ block * 400 + (yearIn rest).1 ∧ block * 400 + (yearIn rest).1 < 10000 := by omega
  obtain ⟨hprint, -⟩ := Agoo.Convert.fill_printed old hyears hfound.rest.1 (found_lt hfound)
  rw [heq, toInt_of_int (by omega) (by omega)]
  generalize fill _ _ _ _ = t at hprint
  obtain ⟨hyears', hmons, hdays, -⟩ := hprint
  obtain ⟨year, hyear'⟩ := Int.eq_ofNat_of_zero_le hyears'.1
  obtain ⟨mon, hmon'⟩ := Int.eq_ofNat_of_zero_le (show 0 ≤ t.mon by omega)
  obtain ⟨day, hday'⟩ := Int.eq_ofNat_of_zero_le hdays.1
  have hslash : (bytes "/").length = 1 := rfl
  have hblank : (bytes " ").length = 1 := rfl
  unfold dayText
  rw [hyear', hmon', hday']
  simp only [List.length_append, hslash, hblank]
  rw [length_zeroPadded (by decide) (by omega), length_zeroPadded (by decide) (by omega),
    length_zeroPadded (by decide) (by omega)]

/-! ## The cache -/

/-- What is known is the day of some local time, or nothing. -/
def Days.Right (d : Days) : Prop :=
  d.dayEnd = d.dayStart ∨ ∃ secs, -62167219200 ≤ secs ∧ d.dayStart = secs / 86400 * 86400 ∧
    d.dayEnd = d.dayStart + 86400 ∧ ∀ old, d.dayBuf = dayText (agooSectime secs old)

theorem classicWrite_right {d : Days} (h : d.Right) (e : Entry) :
    (∀ old, (classicWrite junk zone colorize d e).1 = fieldsLine zone colorize old e) ∧
      (classicWrite junk zone colorize d e).2.Right := by
  have hge : -62167219200 ≤ e.localTime zone := by
    have hrange := localTime_range zone e
    omega
  obtain ⟨year, mon, day, hdate⟩ := sectime_day hge
  unfold classicWrite fieldsLine
  dsimp only
  generalize e.localTime zone = t at *
  split_ifs with hcached
  · -- the day that is known is the one of the entry
    rcases h with hnone | ⟨secs, hsecs, hstart, hend, hbuf⟩
    · omega
    · refine ⟨fun old => ?_, .inr ⟨secs, hsecs, hstart, hend, hbuf⟩⟩
      obtain ⟨hour, min, sec, hfields, hclock⟩ := hdate t old rfl
      obtain ⟨hour', min', sec', hfields', -⟩ := hdate secs old (by omega)
      have ht : t - d.dayStart = t % 86400 := by omega
      obtain ⟨hhour, hmin, hsec⟩ := hclock.read
      rw [ht, hhour, hmin, hsec, hbuf old, hfields, hfields']
      rfl
  · obtain ⟨hour, min, sec, hfields, hclock⟩ := hdate t junk rfl
    have hmod := hclock.eq
    refine ⟨fun old => ?_, .inr ⟨t, hge, ?_, rfl, fun old => ?_⟩⟩
    · obtain ⟨hour', min', sec', hfields', hclock'⟩ := hdate t old rfl
      obtain ⟨rfl, rfl, rfl⟩ := hclock.read
      obtain ⟨rfl, rfl, rfl⟩ := hclock'.read
      rw [hfields, hfields']
    · rw [hfields]
      dsimp only
      omega
    · obtain ⟨hour', min', sec', hfields', -⟩ := hdate t old rfl
      rw [hfields, hfields']
      rfl

variable {junk zone colorize}

theorem classicLog_right {d : Days} (h : d.Right) (es : List Entry) (old : AgooTime) :
    classicLog junk zone colorize d es = es.map (fieldsLine zone colorize old) := by
  induction es generalizing d with
  | nil => rfl
  | cons e es ih =>
    obtain ⟨hline, hright⟩ := classicWrite_right junk zone colorize h e
    unfold classicLog
    dsimp only
    rw [hline old, ih hright, List.map_cons]

end DayCache

end Agoo
