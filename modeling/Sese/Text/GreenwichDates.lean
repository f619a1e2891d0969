import Sese.Text.DateTimeFormatter

/-!
# Dates that are written and read

`parseFromGreenwich` reads what `format` writes with the pattern of Greenwich mean time, for
every time of a year with four digits. The texts of two times are the same when a number of
calendar periods, of ten thousand years each, lies between them.
-/
namespace Sese

open Foundation

theorem length_toDecimal {n k : ℕ} (h : 10 ^ k ≤ n) (h' : n < 10 ^ (k + 1)) :
    (toDecimal n).length = k + 1 := by
  induction k generalizing n with
  | zero =>
    rw [toDecimal_eq, if_pos (by simpa using h')]
    rfl
  | succ k ih =>
    rw [pow_succ] at h h'
    have hpos : 0 < 10 ^ k := Nat.pow_pos (by decide)
    rw [toDecimal_eq, if_neg (by omega), List.length_append, ih (by omega) (by omega)]
    rfl

namespace DateTimeFormatter

theorem isdigit_padded (zeros n : ℕ) : ∀ b ∈ padded zeros n, isdigit b := by
  induction zeros with
  | zero => exact isdigit_toDecimal n
  | succ zeros ih =>
    rw [padded]
    split_ifs
    · exact List.forall_mem_cons.mpr ⟨by decide, ih⟩
    · exact isdigit_toDecimal n

theorem digitsValue_padded (zeros n : ℕ) : digitsValue (padded zeros n) = n := by
  induction zeros with
  | zero => exact digitsValue_toDecimal n
  | succ zeros ih =>
    rw [padded]
    split_ifs
    · exact ih
    · exact digitsValue_toDecimal n

theorem length_padded {zeros n : ℕ} (h : n < 10 ^ (zeros + 1)) :
    (padded zeros n).length = zeros + 1 := by
  induction zeros with
  | zero =>
    rw [padded, toDecimal_eq, if_pos (by simpa using h)]
    rfl
  | succ zeros ih =>
    rw [padded]
    split_ifs with hsmall
    · rw [List.length_cons, ih hsmall]
    · exact length_toDecimal (not_lt.mp hsmall) h

theorem sscanf_int {zeros n : ℕ} (h : n < 10 ^ (zeros + 1)) (format : List Directive) (rest : Bytes) :
    sscanf (.int (zeros + 1) :: format) (padded zeros n ++ rest) =
      (n : ℤ) :: sscanf format rest := by
  have hlen := length_padded h
  have hne : padded zeros n ≠ [] := by
    intro hnil
    rw [hnil] at hlen
    cases hlen
  have hscan : scanInt (zeros + 1) (padded zeros n ++ rest) = _ :=
    scanInt_digits hne (isdigit_padded zeros n) hlen.le (.inl hlen)
  have hdrop : (padded zeros n ++ rest).dropWhile isspace = padded zeros n ++ rest := by
    apply dropWhile_of_head
    intro b hb
    rw [List.head?_append_of_ne_nil _ hne] at hb
    exact not_isspace_of_isdigit (isdigit_padded zeros n b (List.mem_of_head? hb))
  rw [sscanf, hdrop, hscan, digitsValue_padded]

theorem sscanf_blank {text : Bytes} (h : ∀ b ∈ text.head?, ¬ isspace b) (format : List Directive) :
    sscanf (.blank :: format) (32 :: text) = sscanf format text := by
  rw [sscanf, List.dropWhile_cons_of_pos (by decide), dropWhile_of_head h]

theorem sscanf_skip {word text : Bytes} {width : ℕ} (hlen : word.length = width) (hne : word ≠ [])
    (hword : ∀ b ∈ word, ¬ isspace b) (h : ∀ b ∈ text.head?, isspace b) (format : List Directive) :
    sscanf (.skip width :: format) (word ++ text) = sscanf format text := by
  have hdrop : (word ++ text).dropWhile isspace = word ++ text := by
    apply dropWhile_of_head
    intro b hb
    rw [List.head?_append_of_ne_nil _ hne] at hb
    exact hword b (List.mem_of_head? hb)
  have htake : (word ++ text).takeWhile (fun b => !isspace b) = word :=
    takeWhile_append_of_head (fun b hb => by simpa using hword b hb) fun b hb => by simpa using h b hb
  have hfield : word.take width = word := List.take_of_length_le hlen.le
  simp only [sscanf, hdrop, htake, hfield, if_neg hne, List.drop_left]

/-- The text of a date, and the parts that it is put together from. -/
theorem format_greenwich (date : DateTime) : format date TIME_GREENWICH_MEAN_PATTERN =
    WK_DAY.getD date.dayofweek [] ++ (bytes ", " ++ (padded 1 date.days ++ (bytes " " ++
      (MON_ARRAY.getD (date.months - 1) [] ++ (bytes " " ++ (padded 3 (date.years % 10000) ++
        (bytes " " ++ (padded 1 date.hours ++ (bytes ":" ++ (padded 1 date.minutes ++ (bytes ":" ++
          (padded 1 date.seconds ++ bytes " GMT")))))))))))) := by
  rfl

/-- A text without the octets that end a line or an attribute. -/
def Quiet (text : Bytes) : Prop := ∀ b ∈ text, b ∉ ([0, 10, 13, 59] : Bytes)

instance : DecidablePred Quiet := fun text => List.decidableBAll _ text

theorem Quiet.append {text text' : Bytes} (h : Quiet text) (h' : Quiet text') :
    Quiet (text ++ text') := by
  intro b hb
  rcases List.mem_append.mp hb with hb | hb
  · exact h b hb
  · exact h' b hb

theorem quiet_padded (zeros n : ℕ) : Quiet (padded zeros n) := by
  intro b hb hmem
  have hdigit := isdigit_padded zeros n b hb
  simp only [List.mem_cons, List.not_mem_nil, or_false] at hmem
  rcases hmem with rfl | rfl | rfl | rfl
  all_goals exact absurd hdigit (by decide)

structure IsName (name : Bytes) : Prop where
  length : name.length = 3
  letters : ∀ b ∈ name, ¬ isspace b
  quiet : Quiet name

theorem isName_WK_DAY {i : ℕ} (h : i < 7) : IsName (WK_DAY.getD i []) := by
  have hall : ∀ i < 7, (WK_DAY.getD i []).length = 3 ∧ (∀ b ∈ WK_DAY.getD i [], ¬ isspace b) ∧
    Quiet (WK_DAY.getD i []) := by decide
  obtain ⟨hlen, hletters, hquiet⟩ := hall i h
  exact ⟨hlen, hletters, hquiet⟩

theorem isName_MON_ARRAY {i : ℕ} (h : i < 12) : IsName (MON_ARRAY.getD i []) := by
  have hall : ∀ i < 12, (MON_ARRAY.getD i []).length = 3 ∧
    (∀ b ∈ MON_ARRAY.getD i [], ¬ isspace b) ∧ Quiet (MON_ARRAY.getD i []) := by decide
  obtain ⟨hlen, hletters, hquiet⟩ := hall i h
  exact ⟨hlen, hletters, hquiet⟩

theorem mon2number_MON_ARRAY {i : ℕ} (h : i < 12) : mon2number (MON_ARRAY.getD i []) = i := by
  have hall : ∀ i < 12, mon2number (MON_ARRAY.getD i []) = (i : ℤ) := by decide
  exact hall i h

/-- A date whose fields have the widths of the pattern. -/
structure Fits (date : DateTime) : Prop where
  years : date.years < 10000
  months : 1 ≤ date.months ∧ date.months ≤ 12
  days : date.days < 100
  hours : date.hours < 100
  minutes : date.minutes < 100
  seconds : date.seconds < 100
  dayofweek : date.dayofweek < 7

variable {date : DateTime}

theorem quiet_format (h : Fits date) : Quiet (format date TIME_GREENWICH_MEAN_PATTERN) := by
  have hmonth : date.months - 1 < 12 := by
    have := h.months
    omega
  have hcomma : Quiet (bytes ", ") := by decide
  have hblank : Quiet (bytes " ") := by decide
  have hcolon : Quiet (bytes ":") := by decide
  have hzone : Quiet (bytes " GMT") := by decide
  rw [format_greenwich]
  apply (isName_WK_DAY h.dayofweek).quiet.append
  apply hcomma.append
  apply (quiet_padded 1 _).append
  apply hblank.append
  apply (isName_MON_ARRAY hmonth).quiet.append
  apply hblank.append
  apply (quiet_padded 3 _).append
  apply hblank.append
  apply (quiet_padded 1 _).append
  apply hcolon.append
  apply (quiet_padded 1 _).append
  apply hcolon.append
  exact (quiet_padded 1 _).append hzone

theorem length_format (h : Fits date) : (format date TIME_GREENWICH_MEAN_PATTERN).length = 29 := by
  have hmonth : date.months - 1 < 12 := by
    have := h.months
    omega
  have hyears : date.years % 10000 < 10 ^ (3 + 1) := Nat.mod_lt _ (by decide)
  have htwo : ∀ n < 100, (padded 1 n).length = 2 := fun n hn => length_padded hn
  rw [format_greenwich]
  simp only [List.length_append, (isName_WK_DAY h.dayofweek).length, htwo _ h.days,
    (isName_MON_ARRAY hmonth).length, length_padded hyears, htwo _ h.hours, htwo _ h.minutes,
    htwo _ h.seconds]
  rfl

theorem head_of_letters {front rest : Bytes} (hne : front ≠ []) (h : ∀ b ∈ front, ¬ isspace b) :
    ∀ b ∈ (front ++ rest).head?, ¬ isspace b := by
  intro b hb
  rw [List.head?_append_of_ne_nil _ hne] at hb
  exact h b (List.mem_of_head? hb)

theorem head_padded {zeros n : ℕ} (h : n < 10 ^ (zeros + 1)) (rest : Bytes) :
    ∀ b ∈ (padded zeros n ++ rest).head?, ¬ isspace b := by
  apply head_of_letters
  · intro hnil
    have hlen := length_padded h
    rw [hnil] at hlen
    cases hlen
  · exact fun b hb => not_isspace_of_isdigit (isdigit_padded zeros n b hb)

theorem sscanf_format (h : Fits date) :
    sscanf blankFormat (format date TIME_GREENWICH_MEAN_PATTERN) =
      [(date.days : ℤ), (date.years : ℤ), (date.hours : ℤ), (date.minutes : ℤ),
        (date.seconds : ℤ)] := by
  have hyears : date.years % 10000 = date.years := Nat.mod_eq_of_lt h.years
  obtain ⟨hlen, hletters, -⟩ := isName_WK_DAY h.dayofweek
  have hmonth : date.months - 1 < 12 := by
    have := h.months
    omega
  obtain ⟨hlen', hletters', -⟩ := isName_MON_ARRAY hmonth
  have hne' : MON_ARRAY.getD (date.months - 1) [] ≠ [] := by
    intro hnil
    rw [hnil] at hlen'
    cases hlen'
  have hcolon : ∀ (format : List Directive) (text : Bytes),
      sscanf (.octet 58 :: format) (bytes ":" ++ text) = sscanf format text := fun _ _ => rfl
  have hblank : ∀ text : Bytes, bytes " " ++ text = 32 :: text := fun _ => rfl
  have hcomma : ∀ text : Bytes, bytes ", " ++ text = [44] ++ (32 :: text) := fun _ => rfl
  have hspace : ∀ text : Bytes, ∀ b ∈ (32 :: text).head?, isspace b := by
    intro text b hb
    cases hb
    decide
  -- the name of the day with its comma
  have hday : ∀ b ∈ WK_DAY.getD date.dayofweek [] ++ [44], ¬ isspace b := by
    intro b hb
    rcases List.mem_append.mp hb with hb | hb
    · exact hletters b hb
    · rw [List.mem_singleton.mp hb]
      decide
  rw [format_greenwich, hyears, blankFormat, hcomma, ← List.append_assoc,
    sscanf_skip (by rw [List.length_append, hlen]; rfl) (by simp) hday (hspace _),
    sscanf_blank (head_padded h.days _), sscanf_int h.days]
  simp only [hblank]
  rw [sscanf_blank (head_of_letters hne' hletters'), sscanf_skip hlen' hne' hletters' (hspace _),
    sscanf_blank (head_padded h.years _), sscanf_int h.years,
    sscanf_blank (head_padded h.hours _), sscanf_int h.hours, hcolon, sscanf_int h.minutes, hcolon,
    sscanf_int h.seconds]
  rfl

/-- The text is read as the date that it was written for. -/
theorem parseFromGreenwich_format (h : Fits date) :
    parseFromGreenwich (format date TIME_GREENWICH_MEAN_PATTERN) = .ok (toUInt64 (timegm
      { tm_year := (date.years : ℤ) - 1900
        tm_mon := ((date.months - 1 : ℕ) : ℤ)
        tm_mday := date.days
        tm_hour := date.hours
        tm_min := date.minutes
        tm_sec := date.seconds })) := by
  have hmonth : date.months - 1 < 12 := by
    have := h.months
    omega
  obtain ⟨hlen, -, -⟩ := isName_WK_DAY h.dayofweek
  obtain ⟨hlen', -, -⟩ := isName_MON_ARRAY hmonth
  have hcstr : cstr (format date TIME_GREENWICH_MEAN_PATTERN) =
      format date TIME_GREENWICH_MEAN_PATTERN :=
    cstr_eq_self fun h0 => quiet_format h 0 h0 (by decide)
  -- the octets before the name of the month
  obtain ⟨rest, hrest⟩ : ∃ rest, format date TIME_GREENWICH_MEAN_PATTERN =
      WK_DAY.getD date.dayofweek [] ++ (bytes ", " ++ (padded 1 date.days ++ (bytes " " ++
        (MON_ARRAY.getD (date.months - 1) [] ++ rest)))) := ⟨_, format_greenwich date⟩
  obtain ⟨front, htext, hfront⟩ : ∃ front, format date TIME_GREENWICH_MEAN_PATTERN =
      front ++ 32 :: (MON_ARRAY.getD (date.months - 1) [] ++ rest) ∧ front.length = 7 := by
    refine ⟨WK_DAY.getD date.dayofweek [] ++ (bytes ", " ++ padded 1 date.days), ?_, ?_⟩
    · rw [hrest, List.append_assoc, List.append_assoc]
      rfl
    · rw [List.length_append, List.length_append, hlen, length_padded h.days]
      rfl
  have hdrop : ∀ text : Bytes, (front ++ 32 :: text).drop 8 = text := by
    intro text
    rw [← List.singleton_append, ← List.append_assoc]
    exact List.drop_left' (by rw [List.length_append, hfront]; rfl)
  have hget : ∀ text : Bytes, (front ++ 32 :: text)[7]? = some 32 := by
    intro text
    rw [List.getElem?_append_right hfront.le, hfront]
    rfl
  have hshort : ∀ text : Bytes, ¬ (front ++ 32 :: text).length < 8 := by
    intro text
    rw [List.length_append, hfront, List.length_cons]
    omega
  have hscan := sscanf_format h
  rw [parseFromGreenwich, hcstr, hscan, htext, hdrop, hget, if_neg (hshort _),
    List.take_left' hlen', mon2number_MON_ARRAY hmonth]
  simp only [scannedTm]
  rfl

def yearOf (time : ℕ) : ℤ := (Date.ofDays (time / 86400)).year

theorem daysOfMonths_le (leap : Bool) (month : ℕ) : Date.daysOfMonths leap month ≤ 31 * month := by
  induction month with
  | zero => exact Nat.le_refl 0
  | succ month ih =>
    have hdays := Date.daysInMonth_le leap (month + 1)
    rw [Date.daysOfMonths]
    omega

/-- The times before the year 10000 are far from the end of the 64 bit microseconds. -/
theorem microseconds_lt {time : ℕ} (h : yearOf time < 10000) : time * 1000000 < 2 ^ 64 := by
  obtain ⟨hmonth, hday⟩ := Date.ofDays_valid (time / 86400)
  have hnumber := Date.number_ofDays (time / 86400)
  rw [yearOf] at h
  generalize Date.ofDays (time / 86400) = date at h hmonth hday hnumber
  have hmonths := daysOfMonths_le (isLeap date.year) (date.month - 1)
  have hlast := Date.daysInMonth_le (isLeap date.year) date.month
  have hyears : Date.daysBeforeYear date.year ≤ 4000000 := by
    rw [Date.daysBeforeYear]
    omega
  rw [Date.number, Date.dayNumber] at hnumber
  have hdays : time / 86400 ≤ 5000000 := by omega
  omega

def shortYear (date : DateTime) : DateTime := { date with years := date.years % 10000 }

theorem format_shortYear (date : DateTime) :
    format (shortYear date) TIME_GREENWICH_MEAN_PATTERN = format date TIME_GREENWICH_MEAN_PATTERN := by
  rw [format_greenwich, format_greenwich, shortYear, Nat.mod_mod]

theorem fits_shortYear (timestamp : ℕ) : Fits (shortYear (.new timestamp)) := by
  obtain ⟨hmonth, hday⟩ := Date.ofDays_valid (timestamp / 1000 / 1000 / 86400)
  have hlast := Date.daysInMonth_le
    (isLeap (Date.ofDays (timestamp / 1000 / 1000 / 86400)).year)
    (Date.ofDays (timestamp / 1000 / 1000 / 86400)).month
  constructor
  all_goals
    simp only [shortYear, DateTime.new, gmtime]
    generalize Date.ofDays (timestamp / 1000 / 1000 / 86400) = date at hmonth hday hlast ⊢
    omega

theorem fits_new {time : ℕ} (h : yearOf time < 10000) : Fits (.new (time * 1000000)) := by
  have hyears : (DateTime.new (time * 1000000)).years < 10000 := by
    have hseconds : time * 1000000 / 1000 / 1000 = time := by omega
    simp only [DateTime.new, hseconds, gmtime]
    rw [yearOf] at h
    omega
  have hshort : shortYear (.new (time * 1000000)) = .new (time * 1000000) := by
    rw [shortYear, Nat.mod_eq_of_lt hyears]
  rw [← hshort]
  exact fits_shortYear _

theorem length_format_new (timestamp : ℕ) :
    (format (.new timestamp) TIME_GREENWICH_MEAN_PATTERN).length = 29 := by
  rw [← format_shortYear]
  exact length_format (fits_shortYear timestamp)

/-- The time of day and the day of the week come again with the calendar. -/
theorem gmtime_add_cycle (time k : ℕ) : gmtime (time + 315569520000 * k) =
    { gmtime time with tm_year := (gmtime time).tm_year + 10000 * k } := by
  have hdays : (time + 315569520000 * k) / 86400 = time / 86400 + 3652425 * k := by omega
  have hhour : (time + 315569520000 * k) % 86400 = time % 86400 := by omega
  have hmin : (time + 315569520000 * k) % 3600 = time % 3600 := by omega
  have hsec : (time + 315569520000 * k) % 60 = time % 60 := by omega
  have hwday : (4 + (time / 86400 + 3652425 * k)) % 7 = (4 + time / 86400) % 7 := by omega
  rw [gmtime, gmtime, hdays, hhour, hmin, hsec, hwday, Date.ofDays_add_cycle, Date.addYears]
  dsimp only
  congr 1
  ring

/-- The time that the four digits of a year leave of a time. -/
def shortTime (time : ℕ) : ℤ := time - 315569520000 * (yearOf time / 10000)

theorem timegm_shortYear (timestamp : ℕ) :
    timegm { tm_year := ((shortYear (.new timestamp)).years : ℤ) - 1900
             tm_mon := (((shortYear (.new timestamp)).months - 1 : ℕ) : ℤ)
             tm_mday := (shortYear (.new timestamp)).days
             tm_hour := (shortYear (.new timestamp)).hours
             tm_min := (shortYear (.new timestamp)).minutes
             tm_sec := (shortYear (.new timestamp)).seconds } =
      shortTime (timestamp / 1000 / 1000) := by
  have hyear : 1970 ≤ yearOf (timestamp / 1000 / 1000) :=
    Date.ofDays_year_mono (Nat.zero_le (timestamp / 1000 / 1000 / 86400))
  obtain ⟨hmonth, -⟩ := Date.ofDays_valid (timestamp / 1000 / 1000 / 86400)
  have hnumber := Date.number_ofDays (timestamp / 1000 / 1000 / 86400)
  have hshort := Date.number_add_cycle (Date.ofDays (timestamp / 1000 / 1000 / 86400))
    (-(yearOf (timestamp / 1000 / 1000) / 10000))
  simp only [timegm, shortTime, shortYear, DateTime.new, gmtime, yearOf] at hyear hshort ⊢
  generalize timestamp / 1000 / 1000 = time at *
  generalize Date.ofDays (time / 86400) = date at *
  rw [hnumber, Date.number, Date.addYears] at hshort
  have hyears : (((date.year - 1900 + 1900).toNat % 10000 : ℕ) : ℤ) - 1900 + 1900 +
      (((date.month : ℤ) - 1 + 1).toNat - 1 : ℕ) / 12 =
        date.year + 10000 * -(date.year / 10000) := by omega
  have hmonths : (((((date.month : ℤ) - 1 + 1).toNat - 1 : ℕ) : ℤ) % 12).toNat =
      date.month - 1 := by omega
  rw [hyears, hmonths, Int.toNat_natCast, hshort]
  push_cast
  omega

theorem shortTime_bounds (time : ℕ) : -2 ^ 60 < shortTime time ∧ shortTime time < 2 ^ 60 := by
  have hvalid := Date.ofDays_valid (time / 86400)
  have hnumber := Date.number_ofDays (time / 86400)
  have hlt := hvalid.number_lt
  have heq := hvalid.number_eq
  rw [shortTime, yearOf]
  generalize Date.ofDays (time / 86400) = date at *
  rw [Date.daysBeforeYear] at hlt heq
  omega

theorem toUInt64_injOn {i j : ℤ} (hi : -2 ^ 60 < i ∧ i < 2 ^ 60) (hj : -2 ^ 60 < j ∧ j < 2 ^ 60)
    (h : toUInt64 i = toUInt64 j) : i = j := by
  rw [toUInt64, toUInt64] at h
  omega

theorem parseFromGreenwich_text (timestamp : ℕ) :
    parseFromGreenwich (format (.new timestamp) TIME_GREENWICH_MEAN_PATTERN) =
      .ok (toUInt64 (shortTime (timestamp / 1000 / 1000))) := by
  rw [← format_shortYear, parseFromGreenwich_format (fits_shortYear timestamp), timegm_shortYear]

theorem parseFromGreenwich_new {time : ℕ} (h : yearOf time < 10000) :
    parseFromGreenwich (format (.new (time * 1000000 % 2 ^ 64)) TIME_GREENWICH_MEAN_PATTERN) =
      .ok time := by
  have hlt := microseconds_lt h
  have hseconds : time * 1000000 / 1000 / 1000 = time := by omega
  have hyear : 1970 ≤ yearOf time := Date.ofDays_year_mono (Nat.zero_le (time / 86400))
  have hshort : shortTime time = time := by
    rw [shortTime]
    omega
  rw [Nat.mod_eq_of_lt hlt, parseFromGreenwich_text, hseconds, hshort, toUInt64]
  congr 1
  omega

theorem format_add_cycle {timestamp timestamp' k : ℕ}
    (h : timestamp' / 1000 / 1000 = timestamp / 1000 / 1000 + 315569520000 * k) :
    format (.new timestamp') TIME_GREENWICH_MEAN_PATTERN =
      format (.new timestamp) TIME_GREENWICH_MEAN_PATTERN := by
  have hyear : 1970 - 1900 ≤ (gmtime (timestamp / 1000 / 1000)).tm_year :=
    Int.sub_le_sub_right (Date.ofDays_year_mono (Nat.zero_le _)) 1900
  have hyears : (DateTime.new timestamp').years % 10000 = (DateTime.new timestamp).years % 10000 := by
    simp only [DateTime.new, h, gmtime_add_cycle]
    omega
  rw [format_greenwich, format_greenwich, hyears]
  simp only [DateTime.new, h, gmtime_add_cycle]

/-- Two times have one text when whole calendar periods lie between them. -/
theorem format_new_eq_iff {timestamp timestamp' : ℕ} :
    format (.new timestamp) TIME_GREENWICH_MEAN_PATTERN =
        format (.new timestamp') TIME_GREENWICH_MEAN_PATTERN ↔
      timestamp / 1000 / 1000 ≡ timestamp' / 1000 / 1000 [MOD 315569520000] := by
  constructor
  · intro h
    have hread := congrArg parseFromGreenwich h
    rw [parseFromGreenwich_text, parseFromGreenwich_text, Except.ok.injEq] at hread
    have hshort := toUInt64_injOn (shortTime_bounds _) (shortTime_bounds _) hread
    rw [shortTime, shortTime] at hshort
    rw [Nat.ModEq]
    omega
  · intro h
    rw [Nat.ModEq] at h
    rcases Nat.le_total (timestamp / 1000 / 1000) (timestamp' / 1000 / 1000) with hle | hle
    · obtain ⟨k, hk⟩ : ∃ k, timestamp' / 1000 / 1000 =
          timestamp / 1000 / 1000 + 315569520000 * k :=
        ⟨(timestamp' / 1000 / 1000 - timestamp / 1000 / 1000) / 315569520000, by omega⟩
      exact (format_add_cycle hk).symm
    · obtain ⟨k, hk⟩ : ∃ k, timestamp / 1000 / 1000 =
          timestamp' / 1000 / 1000 + 315569520000 * k :=
        ⟨(timestamp / 1000 / 1000 - timestamp' / 1000 / 1000) / 315569520000, by omega⟩
      exact format_add_cycle hk

end DateTimeFormatter
end Sese
