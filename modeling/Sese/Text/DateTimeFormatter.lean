import Sese.Foundation.Calendar
import Sese.Util.Scan

/-!
# Dates as texts

`DateTime`, the pattern engine `DateTimeFormatter::format`, and `parseFromGreenwich`.
`gmtime` and `timegm` are the conversions of the Gregorian calendar.
-/
namespace Sese

open Foundation

/-- `struct tm`: the year is counted from 1900, and the month from 0. -/
structure Tm where
  tm_year : ℤ := 0
  tm_mon : ℤ := 0
  tm_mday : ℤ := 0
  tm_hour : ℤ := 0
  tm_min : ℤ := 0
  tm_sec : ℤ := 0
  tm_wday : ℕ := 0
  deriving DecidableEq

/-- `gmtime`, for a time that is not before 1970, which was a Thursday. -/
def gmtime (time : ℕ) : Tm :=
  let date := Date.ofDays (time / 86400)
  { tm_year := date.year - 1900
    tm_mon := date.month - 1
    tm_mday := date.day
    tm_hour := (time % 86400 / 3600 : ℕ)
    tm_min := (time % 3600 / 60 : ℕ)
    tm_sec := (time % 60 : ℕ)
    tm_wday := (4 + time / 86400) % 7 }

/-- `timegm`: months beyond the year belong to another year. -/
def timegm (tm : Tm) : ℤ :=
  let days := Date.dayNumber (tm.tm_year + 1900 + tm.tm_mon / 12) (tm.tm_mon % 12).toNat tm.tm_mday
  days * 86400 + tm.tm_hour * 3600 + tm.tm_min * 60 + tm.tm_sec

theorem timegm_gmtime (time : ℕ) : timegm (gmtime time) = time := by
  obtain ⟨⟨hmin, hmax⟩, -⟩ := Date.ofDays_valid (time / 86400)
  have hnumber := Date.number_ofDays (time / 86400)
  rw [timegm, gmtime]
  rw [Date.number] at hnumber
  generalize Date.ofDays (time / 86400) = date at hmin hmax hnumber ⊢
  have hyear : date.year - 1900 + 1900 + ((date.month : ℤ) - 1) / 12 = date.year := by omega
  have hmonth : (((date.month : ℤ) - 1) % 12).toNat = date.month - 1 := by omega
  dsimp only
  rw [hyear, hmonth, hnumber]
  push_cast
  omega

/-- `DateTime(timestamp, 0)`: the time stamp is in microseconds. -/
structure DateTime where
  years : ℕ
  months : ℕ
  days : ℕ
  hours : ℕ
  minutes : ℕ
  seconds : ℕ
  dayofweek : ℕ
  milliseconds : ℕ
  microseconds : ℕ
  deriving DecidableEq

def DateTime.new (timestamp : ℕ) : DateTime :=
  let tm := gmtime (timestamp / 1000 / 1000)
  { years := (tm.tm_year + 1900).toNat
    months := (tm.tm_mon + 1).toNat
    days := tm.tm_mday.toNat
    hours := tm.tm_hour.toNat
    minutes := tm.tm_min.toNat
    seconds := tm.tm_sec.toNat
    dayofweek := tm.tm_wday
    milliseconds := timestamp % (1000 * 1000) / 1000
    microseconds := timestamp % (1000 * 1000) % 1000 }

namespace DateTimeFormatter

def MONTH_ARRAY : List Bytes :=
  [bytes "January", bytes "February", bytes "March", bytes "April", bytes "May", bytes "June",
    bytes "July", bytes "August", bytes "September", bytes "October", bytes "November",
    bytes "December"]

def MON_ARRAY : List Bytes :=
  [bytes "Jan", bytes "Feb", bytes "Mar", bytes "Apr", bytes "May", bytes "Jun", bytes "Jul",
    bytes "Aug", bytes "Sep", bytes "Oct", bytes "Nov", bytes "Dec"]

def WEEK_DAY : List Bytes :=
  [bytes "Sunday", bytes "Monday", bytes "Tuesday", bytes "Wednesday", bytes "Thursday",
    bytes "Friday", bytes "Saturday"]

def WK_DAY : List Bytes :=
  [bytes "Sun", bytes "Mon", bytes "Tue", bytes "Wed", bytes "Thu", bytes "Fri", bytes "Sat"]

/-- The entry of `MON_MAP`, which counts from 1, less 1. -/
def mon2number (str : Bytes) : ℤ :=
  match MON_ARRAY.idxOf? str with
  | some i => i
  | none => -1

/-- `count`: how often the first octet is repeated, up to four times. -/
def count (ch : UInt8) (pattern : Bytes) : ℕ := ((pattern.take 4).takeWhile (· = ch)).length

/-- A number with up to `zeros` zeros before it. -/
def padded : ℕ → ℕ → Bytes
  | 0, n => toDecimal n
  | zeros + 1, n => if n < 10 ^ (zeros + 1) then 48 :: padded zeros n else toDecimal n

/-- What the pattern starts with stands for, and how much of the pattern that is. -/
def formatField (date : DateTime) (ch : UInt8) (pattern : Bytes) : Bytes × ℕ :=
  let n := count ch pattern
  if ch = 100 then -- 'd'
    (if n = 1 then toDecimal date.days else if n = 2 then padded 1 date.days
      else if n = 3 then WK_DAY.getD date.dayofweek [] else WEEK_DAY.getD date.dayofweek [], n)
  else if ch = 109 then -- 'm'
    if n = 1 then (toDecimal date.minutes, 1) else (padded 1 date.minutes, 2)
  else if ch = 77 then -- 'M'
    (if n = 1 then toDecimal date.months else if n = 2 then padded 1 date.months
      else if n = 3 then MON_ARRAY.getD (date.months - 1) []
      else MONTH_ARRAY.getD (date.months - 1) [], n)
  else if ch = 121 then -- 'y'
    (if n = 1 then toDecimal (date.years % 100) else if n = 2 then padded 1 (date.years % 100)
      else if n = 3 then padded 2 (date.years % 1000) else padded 3 (date.years % 10000), n)
  else if ch = 122 then -- 'z'
    (bytes "+0", 1)
  else if ch = 104 then -- 'h'
    let hour := if date.hours % 12 = 0 then 12 else date.hours % 12
    if n = 1 then (toDecimal hour, 1) else (padded 1 hour, 2)
  else if ch = 72 then -- 'H'
    if n = 1 then (toDecimal date.hours, 1) else (padded 1 date.hours, 2)
  else if ch = 116 then -- 't'
    (if date.hours < 12 then bytes "AM" else bytes "PM", 1)
  else if ch = 115 then -- 's'
    if n = 1 then (toDecimal date.seconds, 1) else (padded 1 date.seconds, 2)
  else if ch = 102 then -- 'f'
    (if n = 1 then toDecimal date.milliseconds else if n = 2 then padded 2 date.milliseconds
      else if n = 3 then toDecimal date.microseconds else padded 2 date.microseconds, n)
  else if ch = 37 then -- '%'
    match pattern with
    | _ :: next :: _ => ([next], 2)
    | _ => ([], 1)
  else ([ch], 1)

/-- The loop of `format`; every round takes at least one octet of the pattern. -/
def formatLoop (date : DateTime) : ℕ → Bytes → Bytes
  | 0, _ => []
  | _ + 1, [] => []
  | fuel + 1, ch :: pattern =>
    let field := formatField date ch (ch :: pattern)
    field.1 ++ formatLoop date fuel ((ch :: pattern).drop field.2)

def format (date : DateTime) (pattern : Bytes) : Bytes := formatLoop date pattern.length pattern

def TIME_GREENWICH_MEAN_PATTERN : Bytes := bytes "ddd, dd MMM yyyy HH:mm:ss %G%M%T"

/-- `"%*4s %2d-%*3s-%2d %2d:%2d:%2d %*3s"`. -/
def dashedFormat : List Directive :=
  [.skip 4, .blank, .int 2, .octet 45, .skip 3, .octet 45, .int 2, .blank, .int 2, .octet 58,
    .int 2, .octet 58, .int 2, .blank, .skip 3]

/-- `"%*4s %2d %*3s %4d %2d:%2d:%2d %*3s"`. -/
def blankFormat : List Directive :=
  [.skip 4, .blank, .int 2, .blank, .skip 3, .blank, .int 4, .blank, .int 2, .octet 58, .int 2,
    .octet 58, .int 2, .blank, .skip 3]

/-- The fields that `sscanf` has assigned; the others stay 0. -/
def scannedTm (fields : List ℤ) (tm_mon : ℤ) (year : ℤ) : Tm where
  tm_mday := fields.getD 0 0
  tm_mon := tm_mon
  tm_year := fields.getD 1 0 + year
  tm_hour := fields.getD 2 0
  tm_min := fields.getD 3 0
  tm_sec := fields.getD 4 0

/-- `parseFromGreenwich`; `substr` throws when the text has less than eight octets. -/
def parseFromGreenwich (text : Bytes) : Except Fault ℕ :=
  if text.length < 8 then .error .terminate
  else
    let tm_mon := mon2number ((text.drop 8).take 3)
    let tm :=
      if text[7]? = some 45 then scannedTm (sscanf dashedFormat (cstr text)) tm_mon 100
      else scannedTm (sscanf blankFormat (cstr text)) tm_mon (-1900)
    .ok (toUInt64 (timegm tm))

end DateTimeFormatter

end Sese
