import Agoo.IntLiterals
import Agoo.SecTime
import Mathlib.Tactic.Linarith

/-!
# Time texts (`time_parse` in `gqlvalue.c`)

A time is a date, perhaps a clock behind a `T`, a fraction of a second, and a zone. `TimeText` is such a
text by its parts, `instant` the nanosecond it stands for. `timeParse` is the code: it checks no range,
takes the minutes of a zone for seconds, subtracts the fraction before 1970 when there is no zone, and in
two places accepts what is no time (`time_parse_iff`).
-/

namespace Agoo

open Json (wrap64)

namespace SecTime

/-! ## The parser -/

/-- `struct tm`. -/
structure Tm where
  year : ℤ
  mon : ℤ
  mday : ℤ
  hour : ℤ
  min : ℤ
  sec : ℤ

/-- `timegm`: the days are those of the proleptic Gregorian calendar, a month behind the last of a year or
before the first is one of another year. -/
def timegm (tm : Tm) : ℤ :=
  let year := tm.year + 1900 + tm.mon / 12
  (yearStart year + daysBefore (isLeap year) (tm.mon % 12 + 1) + (tm.mday - 1) - 719162) * 86400 +
    tm.hour * 3600 + tm.min * 60 + tm.sec

/-- Nanoseconds in an `int64_t`. -/
def nanos (secs : ℤ) : ℤ := wrap64 (secs * 1000000000)

section

variable (str : Bytes)

/-- `read_num`: `len` digits from offset `s` on; where they end, and the number. -/
def readNum : ℕ → ℕ → ℕ → Option (ℕ × ℕ)
  | 0, s, v => some (s, v)
  | len + 1, s, v =>
    if isDigit (at0 str s) then readNum len (s + 1) (10 * v + digitVal (at0 str s)) else none

/-- A byte that has to stand at an offset. -/
def expect (c : Char) (s : ℕ) : Option Unit := if at0 str s = chr c then some () else none

/-- `read_zone`. -/
def readZone (s : ℕ) : Option (ℕ × ℕ) := do
  let (s, hr) ← readNum str 2 s 0
  expect str ':' s
  let (s, min) ← readNum str 2 (s + 1) 0
  return (s, hr * 60 + min)

/-- What ends a date or a clock: `Z`, a zone of so many minutes, or another byte. -/
inductive Ending
  | zulu
  | zone (v : ℤ)
  | other (c : Byte)

/-- The `switch` on the byte behind a date or a clock; `room` bytes are needed for a zone. -/
def readEnding (fin room s : ℕ) : Option Ending :=
  let c := at0 str s
  let s := s + 1
  if c = chr 'Z' then if s = fin then some .zulu else none
  else if c = chr '-' ∨ c = chr '+' then
    if fin - s < room then none
    else do
      let (s, v) ← readZone str s
      if s = fin then some (.zone (if c = chr '-' then -v else v)) else none
  else some (.other c)

/-- The loop over the digits of a fraction: how many are missing, where it stops, and their number. -/
def fracLoop (fin : ℕ) : ℕ → ℕ → ℕ → Option (ℕ × ℕ × ℕ)
  | 0, s, nsecs => some (0, s, nsecs)
  | i + 1, s, nsecs =>
    if fin ≤ s then none
    else if isDigit (at0 str s) then fracLoop fin i (s + 1) (10 * nsecs + digitVal (at0 str s))
    else some (i + 1, s, nsecs)

/-- The part of `time_parse` behind the dot. -/
def parseFraction (fin s : ℕ) (tm : Tm) : Option ℤ := do
  let (i, s, nsecs) ← fracLoop str fin 9 s 0
  let nsecs := nsecs * 10 ^ i
  let secs := nanos (timegm tm)
  let last := if 0 ≤ secs then wrap64 (secs + nsecs) else wrap64 (secs - nsecs)
  match ← readEnding str fin 5 s with
  | .zulu => some last
  | .zone v => some (wrap64 ((timegm tm - v) * 1000000000 + nsecs))
  | .other _ => if s + 1 = fin then some last else none

/-- The part behind the clock. -/
def parseEnd (fin s : ℕ) (tm : Tm) : Option ℤ := do
  match ← readEnding str fin 5 s with
  | .zulu => some (nanos (timegm tm))
  | .zone v => some (nanos (timegm tm - v))
  | .other c => if c = chr '.' then parseFraction str fin (s + 1) tm else none

/-- The part behind the `T`. A byte of the hour that is no digit ends it without an error. -/
def parseClock (fin s : ℕ) (tm : Tm) : Option ℤ :=
  if fin - s < 9 then none
  else match readNum str 2 s 0 with
    | none => some 0
    | some (s, hour) => do
      expect str ':' s
      let (s, min) ← readNum str 2 (s + 1) 0
      expect str ':' s
      let (s, sec) ← readNum str 2 (s + 1) 0
      parseEnd str fin s { tm with hour := hour, min := min, sec := sec }

/-- The date: where it ends, and its fields. -/
def parseDate : Option (ℕ × Tm) := do
  let neg := at0 str 0 = chr '-'
  let (s, year) ← readNum str 4 (if neg then 1 else 0) 0
  let year : ℤ := if neg then -year else year
  expect str '-' s
  let (s, mon) ← readNum str 2 (s + 1) 0
  expect str '-' s
  let (s, mday) ← readNum str 2 (s + 1) 0
  return (s, ⟨year - 1900, mon - 1, mday, 0, 0, 0⟩)

/-- `time_parse`; no result is an error. -/
def timeParse (len : ℤ) : Option ℤ := do
  let fin := if len < 0 then strlen str else len.toNat
  if fin < 10 ∨ 36 < fin then none
  else
    let (s, tm) ← parseDate str
    if fin = s then some (nanos (timegm tm))
    else match ← readEnding str fin 0 s with
      | .zulu => some (nanos (timegm tm))
      | .zone v => some (nanos (timegm tm - v))
      | .other c => if c = chr 'T' then parseClock str fin (s + 1) tm else none

end

/-! ## Time texts -/

/-- A number written with `n` digits. -/
abbrev Digits (n : ℕ) := { ds : Bytes // ds.length = n ∧ ∀ c ∈ ds, isDigit c = true }

def Digits.num {n : ℕ} (d : Digits n) : ℕ := digitsVal d.1

/-- At most nine digits of a second. -/
abbrev Fraction := { ds : Bytes // ds.length ≤ 9 ∧ ∀ c ∈ ds, isDigit c = true }

def Fraction.nanos (d : Fraction) : ℕ := digitsVal d.1 * 10 ^ (9 - d.1.length)

structure DateText where
  neg : Bool
  year : Digits 4
  mon : Digits 2
  day : Digits 2

structure ZoneText where
  /-- Local time is behind. -/
  neg : Bool
  hour : Digits 2
  min : Digits 2

/-- The end of a text: `Z` or a zone. -/
inductive EndText
  | zulu
  | zone (z : ZoneText)

structure ClockText where
  hour : Digits 2
  min : Digits 2
  sec : Digits 2
  frac : Option Fraction
  ending : EndText

/-- What stands behind the date. -/
inductive RestText
  | none
  | ending (e : EndText)
  | clock (c : ClockText)

structure TimeText where
  date : DateText
  rest : RestText

def DateText.text (d : DateText) : Bytes :=
  (if d.neg then bytes "-" else []) ++ d.year.1 ++ bytes "-" ++ d.mon.1 ++ bytes "-" ++ d.day.1

def ZoneText.text (z : ZoneText) : Bytes :=
  (if z.neg then bytes "-" else bytes "+") ++ z.hour.1 ++ bytes ":" ++ z.min.1

def EndText.text : EndText → Bytes
  | zulu => bytes "Z"
  | zone z => z.text

/-- Hours, minutes and seconds. -/
def clockDigits (hour min sec : Digits 2) : Bytes := hour.1 ++ bytes ":" ++ min.1 ++ bytes ":" ++ sec.1

def fracText : Option Fraction → Bytes
  | none => []
  | some f => bytes "." ++ f.1

def ClockText.text (c : ClockText) : Bytes :=
  clockDigits c.hour c.min c.sec ++ fracText c.frac ++ c.ending.text

def RestText.text : RestText → Bytes
  | none => []
  | ending e => e.text
  | clock c => bytes "T" ++ c.text

def TimeText.text (t : TimeText) : Bytes := t.date.text ++ t.rest.text

/-! ## What a text stands for -/

/-- The year; a minus makes it negative. -/
def DateText.yearNum (d : DateText) : ℤ := if d.neg then -(d.year.num : ℤ) else d.year.num

/-- The seconds that local time is ahead. -/
def ZoneText.ahead (z : ZoneText) : ℤ :=
  let secs : ℤ := z.hour.num * 3600 + z.min.num * 60
  if z.neg then -secs else secs

def EndText.ahead : EndText → ℤ
  | zulu => 0
  | zone z => z.ahead

def RestText.ahead : RestText → ℤ
  | none => 0
  | ending e => e.ahead
  | clock c => c.ending.ahead

/-- The local time. -/
def TimeText.localTime (t : TimeText) : AgooTime :=
  let d := t.date
  match t.rest with
  | .clock c => ⟨c.sec.num, c.min.num, c.hour.num, d.day.num, d.mon.num, d.yearNum⟩
  | _ => ⟨0, 0, 0, d.day.num, d.mon.num, d.yearNum⟩

/-- The nanoseconds of the fraction. -/
def TimeText.fracNanos (t : TimeText) : ℕ :=
  match t.rest with
  | .clock c => (c.frac.map Fraction.nanos).getD 0
  | _ => 0

/-- The nanoseconds since the first day of 1970, in UTC. -/
def TimeText.instant (t : TimeText) : ℤ :=
  (t.localTime.seconds - t.rest.ahead) * 1000000000 + t.fracNanos

/-- The hours and minutes of a zone are in range. -/
def EndText.Valid : EndText → Prop
  | zulu => True
  | zone z => z.hour.num < 24 ∧ z.min.num < 60

def RestText.ZoneValid : RestText → Prop
  | none => True
  | ending e => e.Valid
  | clock c => c.ending.Valid

/-- Everything is in its range. -/
structure TimeText.Valid (t : TimeText) : Prop where
  time : t.localTime.Valid
  zone : t.rest.ZoneValid

/-- What the parser accepts is a valid time, and the result the instant that it stands for. -/
def ReadRight (text : Bytes) : Prop :=
  ∀ r, timeParse text (-1) = some r → ∃ t : TimeText, t.text = text ∧ t.Valid ∧ t.instant = r

/-! ## What the parser makes of a text -/

/-- The minutes of a zone, taken for seconds. -/
def ZoneText.minutes (z : ZoneText) : ℤ :=
  let mins : ℤ := (z.hour.num * 60 + z.min.num : ℕ)
  if z.neg then -mins else mins

def EndText.read : EndText → Ending
  | zulu => .zulu
  | zone z => .zone z.minutes

def DateText.tm (d : DateText) : Tm := ⟨d.yearNum - 1900, d.mon.num - 1, d.day.num, 0, 0, 0⟩

def ClockText.tm (c : ClockText) (tm : Tm) : Tm :=
  { tm with hour := c.hour.num, min := c.min.num, sec := c.sec.num }

/-- The fraction is subtracted from a time before 1970. -/
def lastNanos (secs : ℤ) (nsecs : ℕ) : ℤ :=
  if 0 ≤ nanos secs then wrap64 (nanos secs + nsecs) else wrap64 (nanos secs - nsecs)

def EndText.nanos (secs : ℤ) : EndText → ℤ
  | zulu => SecTime.nanos secs
  | zone z => SecTime.nanos (secs - z.minutes)

def EndText.fracNanos (secs : ℤ) (nsecs : ℕ) : EndText → ℤ
  | zulu => lastNanos secs nsecs
  | zone z => wrap64 ((secs - z.minutes) * 1000000000 + nsecs)

/-- The value of a fraction, or none, and the end of a text. -/
def endNanos (secs : ℤ) (frac : Option Fraction) (e : EndText) : ℤ :=
  match frac with
  | none => e.nanos secs
  | some f => e.fracNanos secs f.nanos

def ClockText.value (tm : Tm) (c : ClockText) : ℤ := endNanos (timegm (c.tm tm)) c.frac c.ending

def TimeText.value (t : TimeText) : ℤ :=
  match t.rest with
  | .none => nanos (timegm t.date.tm)
  | .ending e => e.nanos (timegm t.date.tm)
  | .clock c => c.value t.date.tm

/-- A clock whose hour is no number: the parser returns 0 for it. -/
def NoHour (text : Bytes) : Prop :=
  ∃ (d : DateText) (rest : Bytes), text = d.text ++ bytes "T" ++ rest ∧ 9 ≤ rest.length ∧ text.length ≤ 36 ∧
    ∀ hour : Digits 2, ¬ hour.1 <+: rest

/-- A fraction with one more byte behind it that is not the end of a time: the parser ignores it. -/
def OneMore (text : Bytes) : Prop :=
  ∃ (d : DateText) (hour min sec : Digits 2) (f : Fraction) (c : Byte),
    text = d.text ++ bytes "T" ++ clockDigits hour min sec ++ bytes "." ++ f.1 ++ [c] ∧
      c ≠ chr 'Z' ∧ c ≠ chr '-' ∧ c ≠ chr '+' ∧ (isDigit c = true → f.1.length = 9)

/-! ## Numbers -/

theorem isDigit_ne {c : Byte} (h : isDigit c = true) :
    c ≠ 0 ∧ c ≠ chr '-' ∧ c ≠ chr '+' ∧ c ≠ chr 'Z' ∧ c ≠ chr 'T' ∧ c ≠ chr '.' := by
  have hrange : chr '0' ≤ c ∧ c ≤ chr '9' := by simpa [isDigit] using h
  refine ⟨?_, ?_, ?_, ?_, ?_, ?_⟩
  all_goals
    rintro rfl
    exact absurd hrange (by decide)

theorem readNum_digits {str ds rest : Bytes} {s v : ℕ} (h : str.drop s = ds ++ rest)
    (hds : ∀ c ∈ ds, isDigit c = true) :
    readNum str ds.length s v = some (s + ds.length, ds.foldl (fun a c => 10 * a + digitVal c) v) := by
  induction ds generalizing s v with
  | nil => rfl
  | cons c ds ih =>
    obtain ⟨hat, hnext⟩ := drop_succ_of_drop h
    change readNum str (ds.length + 1) s v = _
    unfold readNum
    rw [hat, if_pos (hds c (.head _)), ih hnext fun d hd => hds d (.tail _ hd)]
    simp [Nat.add_assoc, Nat.add_comm 1]

theorem readNum_num {str rest : Bytes} {s n : ℕ} (d : Digits n) (h : str.drop s = d.1 ++ rest) :
    readNum str n s 0 = some (s + n, d.num) := by
  have := readNum_digits (v := 0) h d.2.2
  rwa [d.2.1] at this

theorem digits_of_readNum {str : Bytes} {n s v s' v' : ℕ} (h : readNum str n s v = some (s', v')) :
    ∃ d : Digits n, str.drop s = d.1 ++ str.drop s' ∧ s' = s + n ∧
      v' = d.1.foldl (fun a c => 10 * a + digitVal c) v := by
  induction n generalizing s v with
  | zero =>
    obtain ⟨rfl, rfl⟩ := Prod.mk.inj (Option.some.inj h)
    exact ⟨⟨[], rfl, by simp⟩, rfl, rfl, rfl⟩
  | succ n ih =>
    unfold readNum at h
    by_cases hd : isDigit (at0 str s) = true
    · rw [if_pos hd] at h
      obtain ⟨d, hdrop, hs', hv'⟩ := ih h
      refine ⟨⟨at0 str s :: d.1, by simp [d.2.1], ?_⟩, ?_, by omega, hv'⟩
      · intro c hc
        rcases List.mem_cons.mp hc with rfl | hc
        · exact hd
        · exact d.2.2 c hc
      · rw [drop_cons_of_at0 (isDigit_ne hd).1, hdrop]
        rfl
    · rw [if_neg hd] at h
      cases h

theorem expect_iff {str : Bytes} {c : Char} {s : ℕ} (hc : chr c ≠ 0) :
    expect str c s = some () ↔ str.drop s = chr c :: str.drop (s + 1) := by
  unfold expect
  constructor
  · intro h
    by_cases hat : at0 str s = chr c
    · rw [drop_cons_of_at0 (by rwa [hat]), hat]
    · rw [if_neg hat] at h
      cases h
  · intro h
    rw [if_pos (drop_succ_of_drop h).1]

theorem readZone_digits {str rest : Bytes} {s : ℕ} (hour min : Digits 2)
    (h : str.drop s = hour.1 ++ chr ':' :: (min.1 ++ rest)) :
    readZone str s = some (s + 5, hour.num * 60 + min.num) ∧ str.drop (s + 5) = rest := by
  have h2 : str.drop (s + 2) = chr ':' :: (min.1 ++ rest) := by
    have := drop_add_of_drop h
    rwa [hour.2.1] at this
  have h3 : str.drop (s + 3) = min.1 ++ rest := (drop_succ_of_drop h2).2
  have h5 : str.drop (s + 3 + 2) = rest := by
    have := drop_add_of_drop h3
    rwa [min.2.1] at this
  refine ⟨?_, h5⟩
  unfold readZone
  rw [readNum_num hour h]
  change (expect str ':' (s + 2)).bind _ = _
  rw [(expect_iff (by decide)).mpr (h2.trans (congrArg _ h3.symm))]
  change (readNum str 2 (s + 3) 0).bind _ = _
  rw [readNum_num min h3]
  rfl

theorem digits_of_readZone {str : Bytes} {s s' v : ℕ} (h : readZone str s = some (s', v)) :
    ∃ hour min : Digits 2, str.drop s = hour.1 ++ chr ':' :: (min.1 ++ str.drop s') ∧
      v = hour.num * 60 + min.num := by
  obtain ⟨⟨s1, hr⟩, h1, h⟩ := Option.bind_eq_some_iff.mp h
  obtain ⟨u, h2, h⟩ := Option.bind_eq_some_iff.mp h
  obtain ⟨⟨s3, min⟩, h3, h⟩ := Option.bind_eq_some_iff.mp h
  obtain ⟨rfl, rfl⟩ := Prod.mk.inj (Option.some.inj h)
  obtain ⟨hour, hhour, -, rfl⟩ := digits_of_readNum h1
  obtain ⟨mins, hmins, -, rfl⟩ := digits_of_readNum h3
  refine ⟨hour, mins, ?_, rfl⟩
  rw [hhour, (expect_iff (by decide)).mp h2, hmins]

/-! ## The end of a text -/

theorem readEnding_text {str : Bytes} {s room : ℕ} (e : EndText) (hroom : room ≤ 5)
    (h : str.drop s = e.text) : readEnding str str.length room s = some e.read := by
  cases e with
  | zulu =>
    have hZ : str.drop s = chr 'Z' :: [] := h
    obtain ⟨hat, hend⟩ := drop_succ_of_drop hZ
    have hlen := congrArg List.length hZ
    rw [List.length_drop, List.length_singleton] at hlen
    unfold readEnding
    rw [hat]
    dsimp only
    rw [if_pos rfl, if_pos (by omega)]
    rfl
  | zone z =>
    obtain ⟨neg, hour, min⟩ := z
    obtain ⟨c, hc, hneg, hdrop⟩ : ∃ c, (c = chr '-' ∨ c = chr '+') ∧ (c = chr '-' ↔ neg = true) ∧
        str.drop s = c :: (hour.1 ++ chr ':' :: (min.1 ++ [])) := by
      cases neg with
      | true => exact ⟨chr '-', .inl rfl, by simp, by simp [h, EndText.text, ZoneText.text, bytes, chr]⟩
      | false =>
        exact ⟨chr '+', .inr rfl, by decide, by simp [h, EndText.text, ZoneText.text, bytes, chr]⟩
    obtain ⟨hat, hrest⟩ := drop_succ_of_drop hdrop
    obtain ⟨hzone, hend⟩ := readZone_digits hour min hrest
    have hlen := congrArg List.length hrest
    rw [List.length_drop, List.length_append, List.length_cons, List.length_append, hour.2.1, min.2.1] at hlen
    unfold readEnding
    rw [hat]
    dsimp only
    rw [if_neg (by rcases hc with rfl | rfl <;> decide), if_pos hc, if_neg (by simp at hlen; omega), hzone]
    change (if s + 1 + 5 = str.length then _ else _) = _
    rw [if_pos (by simp at hlen; omega)]
    unfold EndText.read ZoneText.minutes
    cases neg with
    | true => rw [if_pos (hneg.mpr rfl)]; rfl
    | false => rw [if_neg (fun h => Bool.false_ne_true (hneg.mp h))]; rfl

theorem readEnding_other {str rest : Bytes} {c : Byte} {s : ℕ} (fin room : ℕ) (h : str.drop s = c :: rest)
    (hc : c ≠ chr 'Z' ∧ c ≠ chr '-' ∧ c ≠ chr '+') : readEnding str fin room s = some (.other c) := by
  unfold readEnding
  rw [(drop_succ_of_drop h).1]
  dsimp only
  rw [if_neg hc.1, if_neg (not_or.mpr hc.2)]

/-- What `readEnding` finds is the end of the text, or another byte. -/
theorem text_of_readEnding {str : Bytes} {s room : ℕ} {r : Ending}
    (h : readEnding str str.length room s = some r) :
    (∃ e : EndText, str.drop s = e.text ∧ r = e.read) ∨
      r = .other (at0 str s) ∧ at0 str s ≠ chr 'Z' ∧ at0 str s ≠ chr '-' ∧ at0 str s ≠ chr '+' := by
  unfold readEnding at h
  dsimp only at h
  by_cases hZ : at0 str s = chr 'Z'
  · rw [if_pos hZ] at h
    by_cases hend : s + 1 = str.length
    · rw [if_pos hend] at h
      refine .inl ⟨.zulu, ?_, (Option.some.inj h).symm⟩
      rw [drop_cons_of_at0 (by rw [hZ]; decide), hZ, hend, List.drop_length]
      rfl
    · rw [if_neg hend] at h
      cases h
  rw [if_neg hZ] at h
  by_cases hsign : at0 str s = chr '-' ∨ at0 str s = chr '+'
  · rw [if_pos hsign] at h
    by_cases hroom : str.length - (s + 1) < room
    · rw [if_pos hroom] at h
      cases h
    rw [if_neg hroom] at h
    obtain ⟨⟨s', v⟩, hzone, h⟩ := Option.bind_eq_some_iff.mp h
    change (if s' = str.length then _ else _) = _ at h
    by_cases hend : s' = str.length
    · rw [if_pos hend] at h
      obtain ⟨hour, min, hdrop, rfl⟩ := digits_of_readZone hzone
      rw [hend, List.drop_length, List.append_nil] at hdrop
      left
      rcases hsign with hsign | hsign
      · refine ⟨.zone ⟨true, hour, min⟩, ?_, ?_⟩
        · rw [drop_cons_of_at0 (by rw [hsign]; decide), hsign, hdrop]
          simp [EndText.text, ZoneText.text, bytes, chr]
        · rw [if_pos hsign] at h
          exact (Option.some.inj h).symm
      · refine ⟨.zone ⟨false, hour, min⟩, ?_, ?_⟩
        · rw [drop_cons_of_at0 (by rw [hsign]; decide), hsign, hdrop]
          simp [EndText.text, ZoneText.text, bytes, chr]
        · rw [if_neg (by rw [hsign]; decide)] at h
          exact (Option.some.inj h).symm
    · rw [if_neg hend] at h
      cases h
  · rw [if_neg hsign] at h
    exact .inr ⟨(Option.some.inj h).symm, hZ, not_or.mp hsign⟩

/-! ## Fractions -/

theorem fracLoop_digits {str ds rest : Bytes} {i s n : ℕ} (h : str.drop s = ds ++ rest)
    (hds : ∀ c ∈ ds, isDigit c = true) (hlen : ds.length ≤ i)
    (hrest : ds.length < i → ∃ c, c ∈ rest.head? ∧ isDigit c = false) :
    fracLoop str str.length i s n =
      some (i - ds.length, s + ds.length, ds.foldl (fun a c => 10 * a + digitVal c) n) := by
  induction ds generalizing i s n with
  | nil =>
    cases i with
    | zero => rfl
    | succ i =>
      obtain ⟨c, hc, hdigit⟩ := hrest (Nat.succ_pos i)
      obtain ⟨more, rfl⟩ : ∃ more, rest = c :: more := List.head?_eq_some_iff.mp hc
      have hlt := congrArg List.length h
      simp only [List.length_drop, List.nil_append, List.length_cons] at hlt
      unfold fracLoop
      rw [if_neg (by omega), (drop_succ_of_drop h).1, if_neg (Bool.eq_false_iff.mp hdigit)]
      rfl
  | cons c ds ih =>
    obtain ⟨hat, hnext⟩ := drop_succ_of_drop h
    obtain ⟨i, rfl⟩ : ∃ k, i = k + 1 := ⟨i - 1, by simp only [List.length_cons] at hlen; omega⟩
    have hlt := congrArg List.length h
    simp only [List.length_drop, List.cons_append, List.length_cons] at hlt hlen hrest
    unfold fracLoop
    rw [if_neg (by omega), hat, if_pos (hds c (.head _)),
      ih hnext (fun d hd => hds d (.tail _ hd)) (by omega) fun hlt => hrest (by omega)]
    simp [Nat.add_assoc, Nat.add_comm 1]

theorem digits_of_fracLoop {str : Bytes} {i s n i' s' n' : ℕ}
    (h : fracLoop str str.length i s n = some (i', s', n')) :
    ∃ ds : Bytes, (∀ c ∈ ds, isDigit c = true) ∧ ds.length + i' = i ∧ str.drop s = ds ++ str.drop s' ∧
      n' = ds.foldl (fun a c => 10 * a + digitVal c) n ∧ (isDigit (at0 str s') = true → i' = 0) := by
  induction i generalizing s n with
  | zero =>
    cases h
    exact ⟨[], by simp, rfl, rfl, rfl, fun _ => rfl⟩
  | succ i ih =>
    unfold fracLoop at h
    by_cases hend : str.length ≤ s
    · rw [if_pos hend] at h
      cases h
    rw [if_neg hend] at h
    by_cases hd : isDigit (at0 str s) = true
    · rw [if_pos hd] at h
      obtain ⟨ds, hds, hlen, hdrop, hn, hlast⟩ := ih h
      refine ⟨at0 str s :: ds, ?_, by simp only [List.length_cons]; omega, ?_, hn, hlast⟩
      · intro c hc
        rcases List.mem_cons.mp hc with rfl | hc
        · exact hd
        · exact hds c hc
      · rw [drop_cons_of_at0 (isDigit_ne hd).1, hdrop]
        rfl
    · rw [if_neg hd] at h
      cases h
      exact ⟨[], by simp, by simp, rfl, rfl, fun h => absurd h hd⟩

theorem EndText.head (e : EndText) : ∃ c, c ∈ e.text.head? ∧ isDigit c = false := by
  cases e with
  | zulu => exact ⟨chr 'Z', rfl, rfl⟩
  | zone z =>
    obtain ⟨neg, hour, min⟩ := z
    cases neg with
    | true => exact ⟨chr '-', rfl, rfl⟩
    | false => exact ⟨chr '+', rfl, rfl⟩

/-- A fraction and the byte behind it. -/
theorem fracLoop_fraction {str rest : Bytes} {s : ℕ} (f : Fraction) (h : str.drop s = f.1 ++ rest)
    (hrest : f.1.length < 9 → ∃ c, c ∈ rest.head? ∧ isDigit c = false) :
    fracLoop str str.length 9 s 0 = some (9 - f.1.length, s + f.1.length, digitsVal f.1) ∧
      str.drop (s + f.1.length) = rest :=
  ⟨fracLoop_digits h f.2.2 f.2.1 hrest, drop_add_of_drop h⟩

theorem parseFraction_text {str : Bytes} {s : ℕ} (tm : Tm) (f : Fraction) (e : EndText)
    (h : str.drop s = f.1 ++ e.text) :
    parseFraction str str.length s tm = some (e.fracNanos (timegm tm) f.nanos) := by
  obtain ⟨hloop, hend⟩ := fracLoop_fraction f h fun _ => e.head
  unfold parseFraction
  rw [hloop]
  change (readEnding str str.length 5 (s + f.1.length)).bind _ = _
  rw [readEnding_text e le_rfl hend]
  cases e with
  | zulu => rfl
  | zone z => rfl

theorem parseFraction_oneMore {str : Bytes} {s : ℕ} {c : Byte} (tm : Tm) (f : Fraction)
    (h : str.drop s = f.1 ++ [c]) (hc : c ≠ chr 'Z' ∧ c ≠ chr '-' ∧ c ≠ chr '+')
    (hdigit : isDigit c = true → f.1.length = 9) :
    parseFraction str str.length s tm = some (lastNanos (timegm tm) f.nanos) := by
  obtain ⟨hloop, hend⟩ := fracLoop_fraction f h fun hlt =>
    ⟨c, rfl, Bool.eq_false_iff.mpr fun hd => hlt.ne (hdigit hd)⟩
  have hlen := congrArg List.length hend
  rw [List.length_drop, List.length_singleton] at hlen
  unfold parseFraction
  rw [hloop]
  change (readEnding str str.length 5 (s + f.1.length)).bind _ = _
  rw [readEnding_other _ _ hend hc]
  change (if s + f.1.length + 1 = str.length then _ else _) = _
  rw [if_pos (by omega)]
  rfl

theorem text_of_parseFraction {str : Bytes} {s : ℕ} {tm : Tm} {r : ℤ}
    (h : parseFraction str str.length s tm = some r) :
    (∃ (f : Fraction) (e : EndText), str.drop s = f.1 ++ e.text ∧ r = e.fracNanos (timegm tm) f.nanos) ∨
      ∃ (f : Fraction) (c : Byte), str.drop s = f.1 ++ [c] ∧ (c ≠ chr 'Z' ∧ c ≠ chr '-' ∧ c ≠ chr '+') ∧
        (isDigit c = true → f.1.length = 9) := by
  obtain ⟨⟨i, s', n⟩, hloop, h⟩ := Option.bind_eq_some_iff.mp h
  obtain ⟨ds, hds, hlen, hdrop, rfl, hlast⟩ := digits_of_fracLoop hloop
  obtain ⟨en, hen, h⟩ := Option.bind_eq_some_iff.mp h
  obtain rfl : i = 9 - ds.length := by omega
  rcases text_of_readEnding hen with ⟨e, hend, rfl⟩ | ⟨rfl, hother⟩
  · left
    refine ⟨⟨ds, by omega, hds⟩, e, by rw [hdrop, hend], ?_⟩
    cases e with
    | zulu => exact (Option.some.inj h).symm
    | zone z => exact (Option.some.inj h).symm
  · right
    change (if s' + 1 = str.length then _ else _) = _ at h
    by_cases hend : s' + 1 = str.length
    · refine ⟨⟨ds, by omega, hds⟩, at0 str s', ?_, hother, fun hd => ?_⟩
      · rw [hdrop]
        have hlt : s' < str.length := by omega
        rw [List.drop_eq_getElem_cons hlt, hend, List.drop_length]
        simp [at0, hlt]
      · have := hlast hd
        change ds.length = 9
        omega
    · rw [if_neg hend] at h
      cases h

/-! ## Clocks -/

theorem parseEnd_text {str : Bytes} {s : ℕ} (tm : Tm) (frac : Option Fraction) (e : EndText)
    (h : str.drop s = fracText frac ++ e.text) :
    parseEnd str str.length s tm = some (endNanos (timegm tm) frac e) := by
  cases frac with
  | none =>
    unfold parseEnd
    rw [readEnding_text e le_rfl h]
    cases e with
    | zulu => rfl
    | zone z => rfl
  | some f =>
    have hdot : str.drop s = chr '.' :: (f.1 ++ e.text) := by
      rw [h]
      simp [fracText, bytes, chr]
    unfold parseEnd
    rw [readEnding_other _ _ hdot (by decide)]
    change (if chr '.' = chr '.' then parseFraction str str.length (s + 1) tm else none) = _
    rw [if_pos rfl, parseFraction_text tm f e (drop_succ_of_drop hdot).2]
    rfl

theorem text_of_parseEnd {str : Bytes} {s : ℕ} {tm : Tm} {r : ℤ}
    (h : parseEnd str str.length s tm = some r) :
    (∃ (frac : Option Fraction) (e : EndText), str.drop s = fracText frac ++ e.text ∧
        r = endNanos (timegm tm) frac e) ∨
      ∃ (f : Fraction) (c : Byte), str.drop s = bytes "." ++ f.1 ++ [c] ∧
        (c ≠ chr 'Z' ∧ c ≠ chr '-' ∧ c ≠ chr '+') ∧ (isDigit c = true → f.1.length = 9) := by
  obtain ⟨en, hen, h⟩ := Option.bind_eq_some_iff.mp h
  rcases text_of_readEnding hen with ⟨e, hend, rfl⟩ | ⟨rfl, -⟩
  · left
    refine ⟨none, e, by rw [hend]; rfl, ?_⟩
    cases e with
    | zulu => exact (Option.some.inj h).symm
    | zone z => exact (Option.some.inj h).symm
  · change (if at0 str s = chr '.' then _ else _) = _ at h
    by_cases hdot : at0 str s = chr '.'
    · rw [if_pos hdot] at h
      have hdrop : str.drop s = chr '.' :: str.drop (s + 1) := by
        rw [drop_cons_of_at0 (by rw [hdot]; decide), hdot]
      rcases text_of_parseFraction h with ⟨f, e, hrest, hr⟩ | ⟨f, c, hrest, hc⟩
      · left
        refine ⟨some f, e, ?_, hr⟩
        rw [hdrop, hrest]
        simp [fracText, bytes, chr]
      · right
        refine ⟨f, c, ?_, hc⟩
        rw [hdrop, hrest]
        simp [bytes, chr]
    · rw [if_neg hdot] at h
      cases h

/-- The digits of a clock are read, and what stands behind them is left. -/
theorem parseClock_digits {str rest : Bytes} {s : ℕ} (tm : Tm) (hour min sec : Digits 2)
    (h : str.drop s = clockDigits hour min sec ++ rest) (hrest : rest ≠ []) :
    parseClock str str.length s tm =
        parseEnd str str.length (s + 8) { tm with hour := hour.num, min := min.num, sec := sec.num } ∧
      str.drop (s + 8) = rest := by
  have h0 : str.drop s = hour.1 ++ chr ':' :: (min.1 ++ chr ':' :: (sec.1 ++ rest)) := by
    rw [h]
    simp [clockDigits, bytes, chr]
  have h2 := drop_add_of_drop h0
  rw [hour.2.1] at h2
  have h3 := (drop_succ_of_drop h2).2
  have h5 := drop_add_of_drop h3
  rw [min.2.1] at h5
  have h6 := (drop_succ_of_drop h5).2
  have h8 := drop_add_of_drop h6
  rw [sec.2.1] at h8
  have hlen := congrArg List.length h8
  rw [List.length_drop] at hlen
  have hpos := List.length_pos_of_ne_nil hrest
  refine ⟨?_, h8⟩
  unfold parseClock
  rw [if_neg (by omega), readNum_num hour h0]
  change (expect str ':' (s + 2)).bind _ = _
  rw [(expect_iff (by decide)).mpr (h2.trans (congrArg _ h3.symm))]
  change (readNum str 2 (s + 2 + 1) 0).bind _ = _
  rw [readNum_num min h3]
  change (expect str ':' (s + 2 + 1 + 2)).bind _ = _
  rw [(expect_iff (by decide)).mpr (h5.trans (congrArg _ h6.symm))]
  change (readNum str 2 (s + 2 + 1 + 2 + 1) 0).bind _ = _
  rw [readNum_num sec h6]
  rfl

theorem digits_of_parseClock {str : Bytes} {s : ℕ} {tm : Tm} {r : ℤ}
    (h : parseClock str str.length s tm = some r) : 9 ≤ str.length - s ∧
      ((∀ hour : Digits 2, ¬ hour.1 <+: str.drop s) ∨
        ∃ (hour min sec : Digits 2) (s' : ℕ), str.drop s = clockDigits hour min sec ++ str.drop s' ∧
          parseEnd str str.length s' { tm with hour := hour.num, min := min.num, sec := sec.num } = some r) := by
  unfold parseClock at h
  by_cases hroom : str.length - s < 9
  · rw [if_pos hroom] at h
    cases h
  refine ⟨Nat.not_lt.mp hroom, ?_⟩
  rw [if_neg hroom] at h
  cases hhour : readNum str 2 s 0 with
  | none =>
    left
    rintro hour ⟨rest, hdrop⟩
    rw [readNum_num hour hdrop.symm] at hhour
    cases hhour
  | some p =>
    right
    obtain ⟨s1, v⟩ := p
    rw [hhour] at h
    obtain ⟨u, h2, h⟩ := Option.bind_eq_some_iff.mp h
    obtain ⟨⟨s3, min⟩, h3, h⟩ := Option.bind_eq_some_iff.mp h
    obtain ⟨u', h4, h⟩ := Option.bind_eq_some_iff.mp h
    obtain ⟨⟨s5, sec⟩, h5, h⟩ := Option.bind_eq_some_iff.mp h
    obtain ⟨hour, hdrop, -, rfl⟩ := digits_of_readNum hhour
    obtain ⟨mins, hmin, -, rfl⟩ := digits_of_readNum h3
    obtain ⟨secs, hsec, -, rfl⟩ := digits_of_readNum h5
    refine ⟨hour, mins, secs, s5, ?_, h⟩
    rw [hdrop, (expect_iff (by decide)).mp h2, hmin, (expect_iff (by decide)).mp h4, hsec]
    simp [clockDigits, bytes, chr]

/-! ## Dates -/

/-- The date without its sign. -/
def dateDigits (year : Digits 4) (mon day : Digits 2) : Bytes :=
  year.1 ++ chr '-' :: (mon.1 ++ chr '-' :: day.1)

theorem DateText.text_eq (d : DateText) :
    d.text = (if d.neg then [chr '-'] else []) ++ dateDigits d.year d.mon d.day := by
  unfold DateText.text dateDigits
  cases d.neg with
  | true => simp [bytes, chr]
  | false => simp [bytes, chr]

theorem length_dateDigits (year : Digits 4) (mon day : Digits 2) : (dateDigits year mon day).length = 10 := by
  simp [dateDigits, year.2.1, mon.2.1, day.2.1]

theorem DateText.length_text (d : DateText) : d.text.length = (if d.neg then 1 else 0) + 10 := by
  rw [d.text_eq, List.length_append, length_dateDigits]
  cases d.neg with
  | true => rfl
  | false => rfl

/-- The parser takes the first byte for the sign. -/
theorem DateText.neg_iff (d : DateText) (rest : Bytes) : at0 (d.text ++ rest) 0 = chr '-' ↔ d.neg = true := by
  rw [d.text_eq]
  cases d.neg with
  | true => exact iff_of_true rfl rfl
  | false =>
    refine iff_of_false ?_ Bool.false_ne_true
    obtain ⟨ds, hlen, hds⟩ := d.year
    match ds, hlen with
    | c :: ds, _ => exact (isDigit_ne (hds c (.head _))).2.1

theorem parseDate_text (d : DateText) (rest : Bytes) :
    parseDate (d.text ++ rest) = some (d.text.length, d.tm) := by
  have hneg : (at0 (d.text ++ rest) 0 = chr '-') = (d.neg = true) := propext (d.neg_iff rest)
  have h0 : (d.text ++ rest).drop (if d.neg then 1 else 0) =
      d.year.1 ++ chr '-' :: (d.mon.1 ++ chr '-' :: (d.day.1 ++ rest)) := by
    rw [d.text_eq]
    cases d.neg with
    | true => simp [dateDigits]
    | false => simp [dateDigits]
  generalize hp : (if d.neg = true then 1 else 0) = p at h0
  have h4 := drop_add_of_drop h0
  rw [d.year.2.1] at h4
  have h5 := (drop_succ_of_drop h4).2
  have h7 := drop_add_of_drop h5
  rw [d.mon.2.1] at h7
  have h8 := (drop_succ_of_drop h7).2
  have hend : d.text.length = p + 4 + 1 + 2 + 1 + 2 := by
    rw [d.length_text, hp]
  unfold parseDate
  simp only [hneg, hp]
  rw [readNum_num d.year h0]
  change (expect _ '-' (p + 4)).bind _ = _
  rw [(expect_iff (by decide)).mpr (h4.trans (congrArg _ h5.symm))]
  change (readNum _ 2 (p + 4 + 1) 0).bind _ = _
  rw [readNum_num d.mon h5]
  change (expect _ '-' (p + 4 + 1 + 2)).bind _ = _
  rw [(expect_iff (by decide)).mpr (h7.trans (congrArg _ h8.symm))]
  change (readNum _ 2 (p + 4 + 1 + 2 + 1) 0).bind _ = _
  rw [readNum_num d.day h8, hend]
  rfl

theorem text_of_parseDate {str : Bytes} {s : ℕ} {tm : Tm} (h : parseDate str = some (s, tm)) :
    ∃ d : DateText, str = d.text ++ str.drop s ∧ s = d.text.length ∧ tm = d.tm := by
  unfold parseDate at h
  obtain ⟨⟨s1, year⟩, h1, h⟩ := Option.bind_eq_some_iff.mp h
  obtain ⟨u2, h2, h⟩ := Option.bind_eq_some_iff.mp h
  obtain ⟨⟨s3, mon⟩, h3, h⟩ := Option.bind_eq_some_iff.mp h
  obtain ⟨u4, h4, h⟩ := Option.bind_eq_some_iff.mp h
  obtain ⟨⟨s5, day⟩, h5, h⟩ := Option.bind_eq_some_iff.mp h
  obtain ⟨rfl, rfl⟩ := Prod.mk.inj (Option.some.inj h)
  obtain ⟨years, hyear, hs1, rfl⟩ := digits_of_readNum h1
  obtain ⟨mons, hmon, hs3, rfl⟩ := digits_of_readNum h3
  obtain ⟨days, hday, hs5, rfl⟩ := digits_of_readNum h5
  have hdrop : str.drop (if at0 str 0 = chr '-' then 1 else 0) = dateDigits years mons days ++ str.drop s5 := by
    rw [hyear, (expect_iff (by decide)).mp h2, hmon, (expect_iff (by decide)).mp h4, hday]
    simp [dateDigits]
  by_cases hneg : at0 str 0 = chr '-'
  · simp only [if_pos hneg] at hdrop hs1
    refine ⟨⟨true, years, mons, days⟩, ?_, ?_, ?_⟩
    · have h0 := drop_cons_of_at0 (m := str) (i := 0) (by rw [hneg]; decide)
      rw [List.drop_zero, hneg, hdrop] at h0
      rw [DateText.text_eq]
      exact h0
    · rw [DateText.length_text]
      dsimp only
      rw [if_pos rfl]
      omega
    · unfold DateText.tm DateText.yearNum
      rw [if_pos hneg, if_pos rfl]
      rfl
  · simp only [if_neg hneg, List.drop_zero] at hdrop hs1
    refine ⟨⟨false, years, mons, days⟩, ?_, ?_, ?_⟩
    · rw [DateText.text_eq]
      exact hdrop
    · rw [DateText.length_text]
      dsimp only
      rw [if_neg Bool.false_ne_true]
      omega
    · unfold DateText.tm DateText.yearNum
      rw [if_neg hneg, if_neg Bool.false_ne_true]
      rfl

/-! ## The whole text -/

theorem zero_not_mem_digits {n : ℕ} (d : Digits n) : 0 ∉ d.1 := fun h => (isDigit_ne (d.2.2 0 h)).1 rfl

theorem zero_not_mem_fraction (f : Fraction) : 0 ∉ f.1 := fun h => (isDigit_ne (f.2.2 0 h)).1 rfl

theorem EndText.zero_not_mem (e : EndText) : 0 ∉ e.text := by
  cases e with
  | zulu => decide
  | zone z =>
    obtain ⟨neg, hour, min⟩ := z
    unfold EndText.text ZoneText.text
    cases neg with
    | true => simp [bytes, zero_not_mem_digits]
    | false => simp [bytes, zero_not_mem_digits]

theorem TimeText.zero_not_mem (t : TimeText) : 0 ∉ t.text := by
  obtain ⟨⟨neg, year, mon, day⟩, rest⟩ := t
  have hdate : 0 ∉ (DateText.mk neg year mon day).text := by
    unfold DateText.text
    cases neg with
    | true => simp [bytes, zero_not_mem_digits]
    | false => simp [bytes, zero_not_mem_digits]
  unfold TimeText.text
  refine List.mem_append.not.mpr (not_or.mpr ⟨hdate, ?_⟩)
  cases rest with
  | none => simp [RestText.text]
  | ending e => exact e.zero_not_mem
  | clock c =>
    obtain ⟨hour, min, sec, frac, e⟩ := c
    cases frac with
    | none =>
      simp [RestText.text, ClockText.text, clockDigits, fracText, bytes, zero_not_mem_digits, e.zero_not_mem]
    | some f =>
      simp [RestText.text, ClockText.text, clockDigits, fracText, bytes, zero_not_mem_digits,
        zero_not_mem_fraction, e.zero_not_mem]

theorem EndText.length_text (e : EndText) : 1 ≤ e.text.length ∧ e.text.length ≤ 6 := by
  cases e with
  | zulu => decide
  | zone z =>
    obtain ⟨neg, hour, min⟩ := z
    unfold EndText.text ZoneText.text
    cases neg with
    | true => simp [bytes, hour.2.1, min.2.1]
    | false => simp [bytes, hour.2.1, min.2.1]

theorem length_clockDigits (hour min sec : Digits 2) : (clockDigits hour min sec).length = 8 := by
  simp [clockDigits, bytes, hour.2.1, min.2.1, sec.2.1]

theorem TimeText.length_text (t : TimeText) : 10 ≤ t.text.length ∧ t.text.length ≤ 36 := by
  obtain ⟨date, rest⟩ := t
  have hdate := date.length_text
  have hneg : (if date.neg then 1 else 0) ≤ 1 := by
    split_ifs
    all_goals decide
  unfold TimeText.text
  rw [List.length_append]
  cases rest with
  | none =>
    simp only [RestText.text, List.length_nil]
    omega
  | ending e =>
    have := e.length_text
    simp only [RestText.text]
    omega
  | clock c =>
    obtain ⟨hour, min, sec, frac, e⟩ := c
    have := e.length_text
    have hfrac : (fracText frac).length ≤ 10 := by
      cases frac with
      | none => decide
      | some f =>
        have := f.2.1
        simp [fracText, bytes]
        omega
    have hT : (bytes "T").length = 1 := rfl
    simp only [RestText.text, ClockText.text, List.length_append, length_clockDigits, hT]
    omega

theorem strlen_of_not_mem {text : Bytes} (h : 0 ∉ text) : strlen text = text.length := by
  unfold strlen
  rw [cstr_of_not_mem h]

/-- The parser behind the date. -/
theorem timeParse_date {text rest : Bytes} (d : DateText) (htext : text = d.text ++ rest) (h0 : 0 ∉ text)
    (hlen : 10 ≤ text.length ∧ text.length ≤ 36) : timeParse text (-1) =
      if rest = [] then some (nanos (timegm d.tm))
      else (readEnding text text.length 0 d.text.length).bind fun
        | .zulu => some (nanos (timegm d.tm))
        | .zone v => some (nanos (timegm d.tm - v))
        | .other c =>
          if c = chr 'T' then parseClock text text.length (d.text.length + 1) d.tm else none := by
  have hdate : parseDate text = some (d.text.length, d.tm) := by
    rw [htext]
    exact parseDate_text d rest
  have hend : text.length = d.text.length ↔ rest = [] := by
    rw [htext, List.length_append]
    constructor
    · intro h
      exact List.length_eq_zero_iff.mp (by omega)
    · rintro rfl
      rfl
  unfold timeParse
  simp only [Int.reduceNeg, Int.neg_neg_iff_pos, Int.zero_lt_one, if_true, strlen_of_not_mem h0]
  rw [if_neg (by omega), hdate]
  change (if text.length = d.text.length then _ else _) = _
  simp only [hend]
  rfl

/-- Behind a `T` that follows a date the clock is read. -/
theorem timeParse_clock {text rest : Bytes} (d : DateText) (htext : text = d.text ++ chr 'T' :: rest)
    (h0 : 0 ∉ text) (hlen : 10 ≤ text.length ∧ text.length ≤ 36) :
    timeParse text (-1) = parseClock text text.length (d.text.length + 1) d.tm ∧
      text.drop (d.text.length + 1) = rest := by
  have hdrop : text.drop d.text.length = chr 'T' :: rest := by
    rw [htext, List.drop_left]
  refine ⟨?_, (drop_succ_of_drop hdrop).2⟩
  rw [timeParse_date d htext h0 hlen, if_neg (List.cons_ne_nil _ _), readEnding_other _ _ hdrop (by decide)]
  change (if chr 'T' = chr 'T' then parseClock text text.length (d.text.length + 1) d.tm else none) = _
  rw [if_pos rfl]

theorem ClockText.text_ne (c : ClockText) : fracText c.frac ++ c.ending.text ≠ [] := by
  have := c.ending.length_text
  intro h
  have := congrArg List.length h
  rw [List.length_append, List.length_nil] at this
  omega

/-- The parser reads every time text. -/
theorem timeParse_text (t : TimeText) : timeParse t.text (-1) = some t.value := by
  have h0 := t.zero_not_mem
  have hlen := t.length_text
  obtain ⟨d, rest⟩ := t
  cases rest with
  | none =>
    exact (timeParse_date d rfl h0 hlen).trans rfl
  | ending e =>
    have htext : (TimeText.mk d (.ending e)).text = d.text ++ e.text := rfl
    generalize (TimeText.mk d (.ending e)).text = text at *
    have hdrop : text.drop d.text.length = e.text := by rw [htext, List.drop_left]
    have hne : e.text ≠ [] := by
      have := e.length_text
      rintro h
      rw [h] at this
      exact absurd this.1 (by decide)
    rw [timeParse_date d htext h0 hlen, if_neg hne, readEnding_text e (Nat.zero_le 5) hdrop]
    cases e with
    | zulu => rfl
    | zone z => rfl
  | clock c =>
    have htext : (TimeText.mk d (.clock c)).text = d.text ++ chr 'T' :: c.text := rfl
    obtain ⟨hparse, hdrop⟩ := timeParse_clock d htext h0 hlen
    have hclock : c.text = clockDigits c.hour c.min c.sec ++ (fracText c.frac ++ c.ending.text) :=
      List.append_assoc _ _ _
    obtain ⟨hdigits, hend⟩ := parseClock_digits d.tm c.hour c.min c.sec (hdrop.trans hclock) c.text_ne
    rw [hparse, hdigits, parseEnd_text _ c.frac c.ending hend]
    rfl

/-- What the parser accepts is a time text, or one of two kinds that are none. -/
theorem text_of_timeParse {text : Bytes} {r : ℤ} (h0 : 0 ∉ text) (h : timeParse text (-1) = some r) :
    (∃ t : TimeText, t.text = text ∧ t.value = r) ∨ NoHour text ∨ OneMore text := by
  have hlen : 10 ≤ text.length ∧ text.length ≤ 36 := by
    by_contra hlen
    unfold timeParse at h
    simp only [Int.reduceNeg, Int.neg_neg_iff_pos, Int.zero_lt_one, if_true, strlen_of_not_mem h0] at h
    rw [if_pos (by omega)] at h
    cases h
  obtain ⟨d, rest, htext⟩ : ∃ (d : DateText) (rest : Bytes), text = d.text ++ rest := by
    unfold timeParse at h
    simp only [Int.reduceNeg, Int.neg_neg_iff_pos, Int.zero_lt_one, if_true, strlen_of_not_mem h0] at h
    rw [if_neg (by omega)] at h
    obtain ⟨⟨s, tm⟩, hdate, -⟩ := Option.bind_eq_some_iff.mp h
    obtain ⟨d, hd, -, -⟩ := text_of_parseDate hdate
    exact ⟨d, _, hd⟩
  have hdrop : text.drop d.text.length = rest := by rw [htext, List.drop_left]
  rw [timeParse_date d htext h0 hlen] at h
  by_cases hrest : rest = []
  · rw [if_pos hrest] at h
    exact .inl ⟨⟨d, .none⟩, by rw [htext, hrest]; rfl, Option.some.inj h⟩
  rw [if_neg hrest] at h
  obtain ⟨en, hen, h⟩ := Option.bind_eq_some_iff.mp h
  rcases text_of_readEnding hen with ⟨e, hend, rfl⟩ | ⟨rfl, -⟩
  · refine .inl ⟨⟨d, .ending e⟩, by rw [htext, ← hdrop, hend]; rfl, ?_⟩
    cases e with
    | zulu => exact Option.some.inj h
    | zone z => exact Option.some.inj h
  change (if at0 text d.text.length = chr 'T' then _ else _) = _ at h
  by_cases hT : at0 text d.text.length = chr 'T'
  · rw [if_pos hT] at h
    have hcons := drop_cons_of_at0 (m := text) (i := d.text.length) (by rw [hT]; decide)
    rw [hT, hdrop] at hcons
    obtain ⟨hroom, hclock⟩ := digits_of_parseClock h
    generalize hclockText : text.drop (d.text.length + 1) = clock at hcons hclock
    rw [hcons] at htext
    rcases hclock with hhour | ⟨hour, min, sec, s', hdigits, hlast⟩
    · refine .inr (.inl ⟨d, clock, ?_, ?_, hlen.2, hhour⟩)
      · rw [htext]
        simp [bytes, chr]
      · rw [← hclockText, List.length_drop]
        exact hroom
    rcases text_of_parseEnd hlast with ⟨frac, e, hend, hr⟩ | ⟨f, c, hend, hc, hdigit⟩
    · refine .inl ⟨⟨d, .clock ⟨hour, min, sec, frac, e⟩⟩, ?_, hr.symm⟩
      rw [htext, hdigits, hend]
      simp [TimeText.text, RestText.text, ClockText.text, bytes, chr]
    · refine .inr (.inr ⟨d, hour, min, sec, f, c, ?_, hc.1, hc.2.1, hc.2.2, hdigit⟩)
      rw [htext, hdigits, hend]
      simp [bytes, chr]
  · rw [if_neg hT] at h
    cases h

theorem noHour_accepted {text : Bytes} (h0 : 0 ∉ text) (h : NoHour text) :
    timeParse text (-1) = some 0 := by
  obtain ⟨d, rest, htext, hroom, hlen, hhour⟩ := h
  have htext' : text = d.text ++ chr 'T' :: rest := by
    rw [htext]
    simp [bytes, chr]
  have hlength := congrArg List.length htext'
  rw [List.length_append, List.length_cons, d.length_text] at hlength
  obtain ⟨hparse, hdrop⟩ := timeParse_clock d htext' h0 ⟨by omega, hlen⟩
  have hnone : readNum text 2 (d.text.length + 1) 0 = none := by
    cases hread : readNum text 2 (d.text.length + 1) 0 with
    | none => rfl
    | some p =>
      obtain ⟨hour, hdigits, -⟩ := digits_of_readNum hread
      rw [hdrop] at hdigits
      exact absurd ⟨_, hdigits.symm⟩ (hhour hour)
  have hend := congrArg List.length hdrop
  rw [List.length_drop] at hend
  rw [hparse]
  unfold parseClock
  rw [if_neg (by omega), hnone]

theorem oneMore_accepted {text : Bytes} (h0 : 0 ∉ text) (h : OneMore text) :
    ∃ r, timeParse text (-1) = some r := by
  obtain ⟨d, hour, min, sec, f, c, htext, hZ, hminus, hplus, hdigit⟩ := h
  have htext' : text = d.text ++ chr 'T' :: (clockDigits hour min sec ++ chr '.' :: (f.1 ++ [c])) := by
    rw [htext]
    simp [bytes, chr]
  have hlen : 10 ≤ text.length ∧ text.length ≤ 36 := by
    have hneg : (if d.neg then 1 else 0) ≤ 1 := by
      split_ifs
      all_goals decide
    have hf := f.2.1
    rw [htext']
    simp only [List.length_append, List.length_cons, List.length_nil, length_clockDigits, d.length_text]
    omega
  obtain ⟨hparse, hdrop⟩ := timeParse_clock d htext' h0 hlen
  obtain ⟨hdigits, hend⟩ := parseClock_digits d.tm hour min sec hdrop (List.cons_ne_nil _ _)
  generalize Tm.mk d.tm.year d.tm.mon d.tm.mday hour.num min.num sec.num = tm at hdigits
  refine ⟨lastNanos (timegm tm) f.nanos, hparse.trans (hdigits.trans ?_)⟩
  unfold parseEnd
  rw [readEnding_other _ _ hend (by decide)]
  change (if chr '.' = chr '.' then parseFraction text text.length (d.text.length + 1 + 8 + 1) tm else none) = _
  rw [if_pos rfl, parseFraction_oneMore tm f (drop_succ_of_drop hend).2 ⟨hZ, hminus, hplus⟩ hdigit]

/-! ## When the value is right -/

/-- A time before 1970 that ends in `Z`, with a fraction. -/
def TimeText.Sinks (t : TimeText) : Prop :=
  match t.rest with
  | .clock ⟨_, _, _, _, .zulu⟩ => t.fracNanos ≠ 0 ∧ nanos t.localTime.seconds < 0
  | _ => False

/-- The value is the instant: local time is UTC, the nanoseconds are an `int64_t`, and the fraction is added. -/
structure TimeText.Exact (t : TimeText) : Prop where
  utc : t.rest.ahead = 0
  fits : GqlValue.FitsI64 t.instant
  rises : ¬ t.Sinks

theorem digitsVal_lt (ds : Bytes) (h : ∀ c ∈ ds, isDigit c = true) : digitsVal ds < 10 ^ ds.length := by
  induction ds using List.reverseRecOn with
  | nil => decide
  | append_singleton ds c ih =>
    have hds := ih fun d hd => h d (List.mem_append_left _ hd)
    have hc := digitVal_le (h c (by simp))
    rw [digitsVal_snoc, List.length_append, List.length_singleton, Nat.pow_succ]
    omega

theorem Digits.num_lt (d : Digits 2) : d.num < 100 := by
  have := digitsVal_lt d.1 d.2.2
  rwa [d.2.1] at this

theorem Fraction.nanos_lt (f : Fraction) : f.nanos < 1000000000 := by
  have hlt := digitsVal_lt f.1 f.2.2
  have hpow : 10 ^ f.1.length * 10 ^ (9 - f.1.length) = 1000000000 := by
    rw [← Nat.pow_add, Nat.add_sub_cancel' f.2.1]
  rw [← hpow]
  exact Nat.mul_lt_mul_of_pos_right hlt (Nat.pow_pos (by decide))

/-- `timegm` of a month in range. -/
theorem timegm_eq (t : AgooTime) (h : 1 ≤ t.mon ∧ t.mon ≤ 12) :
    timegm ⟨t.year - 1900, t.mon - 1, t.day, t.hour, t.min, t.sec⟩ = t.seconds := by
  have hyear : t.year - 1900 + 1900 + (t.mon - 1) / 12 = t.year := by omega
  have hmon : (t.mon - 1) % 12 + 1 = t.mon := by omega
  unfold timegm AgooTime.seconds AgooTime.yearDay
  dsimp only
  rw [hyear, hmon]
  omega

theorem wrap64_spec (z : ℤ) : (∃ k, wrap64 z = z + k * 0x10000000000000000) ∧ GqlValue.FitsI64 (wrap64 z) := by
  unfold GqlValue.FitsI64
  rw [Json.wrap64_eq]
  split_ifs
  · exact ⟨⟨-(z / 0x10000000000000000), by omega⟩, by omega⟩
  · exact ⟨⟨-(z / 0x10000000000000000) - 1, by omega⟩, by omega⟩

theorem wrap64_wrap64_add (z n : ℤ) : wrap64 (wrap64 z + n) = wrap64 (z + n) := by
  obtain ⟨k, hk⟩ := (wrap64_spec z).1
  rw [hk, Json.wrap64_eq, Json.wrap64_eq]
  have : (z + k * 0x10000000000000000 + n) % 0x10000000000000000 = (z + n) % 0x10000000000000000 := by omega
  rw [this]

/-- The minutes that are taken for seconds. -/
def EndText.minutes : EndText → ℤ
  | zulu => 0
  | zone z => z.minutes

def RestText.minutes : RestText → ℤ
  | none => 0
  | ending e => e.minutes
  | clock c => c.ending.minutes

theorem EndText.ahead_eq (e : EndText) : e.ahead = 60 * e.minutes ∧ -10000 < e.minutes ∧ e.minutes < 10000 := by
  cases e with
  | zulu => exact ⟨rfl, by decide, by decide⟩
  | zone z =>
    obtain ⟨neg, hour, min⟩ := z
    have hhour := hour.num_lt
    have hmin := min.num_lt
    unfold EndText.ahead EndText.minutes ZoneText.ahead ZoneText.minutes
    dsimp only
    cases neg with
    | true =>
      rw [if_pos rfl, if_pos rfl]
      omega
    | false =>
      rw [if_neg Bool.false_ne_true, if_neg Bool.false_ne_true]
      omega

theorem RestText.ahead_eq (r : RestText) : r.ahead = 60 * r.minutes ∧ -10000 < r.minutes ∧ r.minutes < 10000 := by
  cases r with
  | none => exact ⟨rfl, by decide, by decide⟩
  | ending e => exact e.ahead_eq
  | clock c => exact c.ending.ahead_eq

theorem EndText.nanos_eq (secs : ℤ) (e : EndText) : e.nanos secs = wrap64 ((secs - e.minutes) * 1000000000) := by
  cases e with
  | zulu =>
    unfold EndText.minutes
    rw [Int.sub_zero]
    rfl
  | zone z => rfl

/-- The value where the fraction is added. -/
theorem endNanos_eq {secs : ℤ} {frac : Option Fraction} {e : EndText}
    (h : e = .zulu → (frac.map Fraction.nanos).getD 0 = 0 ∨ 0 ≤ nanos secs) :
    endNanos secs frac e =
      wrap64 ((secs - e.minutes) * 1000000000 + ((frac.map Fraction.nanos).getD 0 : ℕ)) := by
  cases frac with
  | none =>
    change e.nanos secs = wrap64 (_ + 0)
    rw [Int.add_zero, e.nanos_eq]
  | some f =>
    cases e with
    | zulu =>
      change lastNanos secs f.nanos = wrap64 ((secs - 0) * 1000000000 + f.nanos)
      rw [Int.sub_zero, ← wrap64_wrap64_add]
      unfold lastNanos
      split_ifs with hpos
      · rfl
      · have hzero : f.nanos = 0 := (h rfl).resolve_right hpos
        rw [hzero, Int.natCast_zero, Int.sub_zero, Int.add_zero]
        rfl
    | zone z => rfl

/-- What the parser makes of a time whose fraction is added. -/
theorem value_of_not_sinks {t : TimeText} (hv : t.Valid) (h : ¬ t.Sinks) :
    t.value = wrap64 ((t.localTime.seconds - t.rest.minutes) * 1000000000 + t.fracNanos) := by
  obtain ⟨d, rest⟩ := t
  have hsecs := timegm_eq _ hv.time.mon
  cases rest with
  | none =>
    change nanos (timegm d.tm) = _
    rw [← hsecs]
    change wrap64 _ = wrap64 ((_ - 0) * 1000000000 + 0)
    rw [Int.add_zero, Int.sub_zero]
    rfl
  | ending e =>
    change e.nanos (timegm d.tm) = wrap64 (_ + 0)
    rw [Int.add_zero, e.nanos_eq, ← hsecs]
    rfl
  | clock c =>
    obtain ⟨hour, min, sec, frac, e⟩ := c
    change endNanos (timegm _) frac e = _
    rw [← hsecs]
    refine endNanos_eq ?_
    rintro rfl
    by_contra hno
    obtain ⟨hfrac, hneg⟩ := not_or.mp hno
    refine h ⟨hfrac, ?_⟩
    rw [← hsecs]
    exact Int.not_le.mp hneg

theorem value_of_sinks {t : TimeText} (hv : t.Valid) (h : t.Sinks) :
    t.value = wrap64 (t.localTime.seconds * 1000000000 - t.fracNanos) ∧ t.rest.ahead = 0 ∧
      (0 < t.fracNanos ∧ t.fracNanos < 1000000000) := by
  obtain ⟨d, rest⟩ := t
  have hsecs := timegm_eq _ hv.time.mon
  match rest with
  | .clock ⟨hour, min, sec, frac, .zulu⟩ =>
    obtain ⟨hfrac, hneg⟩ := h
    cases frac with
    | none => exact absurd rfl hfrac
    | some f =>
      refine ⟨?_, rfl, Nat.pos_of_ne_zero hfrac, f.nanos_lt⟩
      have htm : timegm ((ClockText.mk hour min sec (some f) .zulu).tm d.tm) =
          (TimeText.mk d (.clock ⟨hour, min, sec, some f, .zulu⟩)).localTime.seconds := hsecs
      change lastNanos (timegm ((ClockText.mk hour min sec (some f) .zulu).tm d.tm)) f.nanos = _
      rw [htm]
      unfold lastNanos
      rw [if_neg (Int.not_le.mpr hneg), Int.sub_eq_add_neg, Int.sub_eq_add_neg]
      exact wrap64_wrap64_add _ _

/-- For a valid time the value is the instant in exactly these cases. -/
theorem value_eq_instant_iff {t : TimeText} (hv : t.Valid) : t.value = t.instant ↔ t.Exact := by
  obtain ⟨hahead, hlow, hhigh⟩ := t.rest.ahead_eq
  have hinst : t.instant = (t.localTime.seconds - t.rest.ahead) * 1000000000 + t.fracNanos := rfl
  by_cases hsinks : t.Sinks
  · refine iff_of_false ?_ fun h => h.rises hsinks
    obtain ⟨hvalue, hutc, hpos, hlt⟩ := value_of_sinks hv hsinks
    obtain ⟨k, hk⟩ := (wrap64_spec (t.localTime.seconds * 1000000000 - t.fracNanos)).1
    intro heq
    rw [hvalue, hk, hinst, hutc] at heq
    omega
  · have hvalue := value_of_not_sinks hv hsinks
    obtain ⟨⟨k, hk⟩, hfits⟩ :=
      wrap64_spec ((t.localTime.seconds - t.rest.minutes) * 1000000000 + t.fracNanos)
    constructor
    · intro heq
      have hfits' : GqlValue.FitsI64 t.instant := by rwa [← heq, hvalue]
      refine ⟨?_, hfits', hsinks⟩
      have hsame := hk.symm.trans (hvalue.symm.trans (heq.trans hinst))
      have hk0 : k = 0 := by
        rcases lt_trichotomy k 0 with hneg | hzero | hpos
        · linarith
        · exact hzero
        · linarith
      subst hk0
      linarith
    · intro h
      have hutc := h.utc
      have hmins : t.rest.minutes = 0 := by omega
      have hsame : (t.localTime.seconds - t.rest.minutes) * 1000000000 + t.fracNanos = t.instant := by
        rw [hinst, hutc, hmins]
      rw [hvalue, hsame, Json.wrap64_of_fits h.fits]

/-- **For every text: what `time_parse` accepts is a valid time and its instant if and only if the text is
neither a time nor one of the two kinds that are accepted and are none, or it is a valid time in UTC whose
nanoseconds are an `int64_t` and that is not before 1970 with a fraction and a `Z`.** -/
theorem time_parse_iff (m : Bytes) : ReadRight (cstr m) ↔
    ((∀ t : TimeText, t.text ≠ cstr m) ∧ ¬ NoHour (cstr m) ∧ ¬ OneMore (cstr m)) ∨
      ∃ t : TimeText, t.text = cstr m ∧ t.Valid ∧ t.Exact := by
  have h0 := zero_not_mem_cstr m
  generalize cstr m = text at *
  constructor
  · intro h
    by_cases ht : ∃ t : TimeText, t.text = text
    · obtain ⟨t, rfl⟩ := ht
      obtain ⟨t', htext, hv, hr⟩ := h _ (timeParse_text t)
      refine .inr ⟨t', htext, hv, (value_eq_instant_iff hv).mp ?_⟩
      have := timeParse_text t'
      rw [htext, timeParse_text t] at this
      rw [hr, Option.some.inj this]
    · refine .inl ⟨fun t htext => ht ⟨t, htext⟩, fun hno => ?_, fun hone => ?_⟩
      · obtain ⟨t, htext, -⟩ := h _ (noHour_accepted h0 hno)
        exact ht ⟨t, htext⟩
      · obtain ⟨r, hr⟩ := oneMore_accepted h0 hone
        obtain ⟨t, htext, -⟩ := h r hr
        exact ht ⟨t, htext⟩
  · rintro (⟨hno, hhour, hone⟩ | ⟨t, rfl, hv, hexact⟩) r hr
    · rcases text_of_timeParse h0 hr with ⟨t, htext, -⟩ | h | h
      · exact absurd htext (hno t)
      · exact absurd h hhour
      · exact absurd h hone
    · rw [timeParse_text] at hr
      exact ⟨t, rfl, hv, ((value_eq_instant_iff hv).mpr hexact).symm.trans (Option.some.inj hr)⟩

/-- A thirteenth month is accepted. -/
theorem month_thirteen : ¬ ReadRight (bytes "1970-13-01") := by
  intro h
  obtain ⟨t, htext, hv, -⟩ := h 31536000000000000 rfl
  have hneg : t.date.neg = false := by
    refine Bool.eq_false_iff.mpr fun hneg => ?_
    have h0 := (t.date.neg_iff t.rest.text).mpr hneg
    change at0 t.text 0 = chr '-' at h0
    rw [htext] at h0
    exact absurd h0 (by decide)
  have hdrop : (bytes "1970-13-01").drop 0 =
      t.date.year.1 ++ chr '-' :: (t.date.mon.1 ++ chr '-' :: (t.date.day.1 ++ t.rest.text)) := by
    rw [← htext, List.drop_zero, TimeText.text, t.date.text_eq, hneg]
    simp [dateDigits]
  have h4 := drop_add_of_drop hdrop
  rw [t.date.year.2.1] at h4
  have h5 := (drop_succ_of_drop h4).2
  have hmon : t.date.mon.1 = ((bytes "1970-13-01").drop 5).take 2 := by
    rw [show (bytes "1970-13-01").drop 5 = _ from h5, List.take_left' t.date.mon.2.1]
  have hnum : t.date.mon.num = 13 := by
    unfold Digits.num
    rw [hmon]
    rfl
  have hlocal : t.localTime.mon = t.date.mon.num := by
    unfold TimeText.localTime
    cases t.rest with
    | none => rfl
    | ending e => rfl
    | clock c => rfl
  have hle := hv.time.mon.2
  rw [hlocal, hnum] at hle
  exact absurd hle (by decide)

end SecTime

end Agoo
