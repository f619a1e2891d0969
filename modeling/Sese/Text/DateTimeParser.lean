import Sese.Foundation.Outcome
import Sese.Foundation.Rounds
import Sese.Io.InputBufferWrapper
import Sese.Text.DateTimeFormatter
import Sese.Text.FormatOption

/-!
# Reading dates

`DateTimeParser::parse`: a loop over the letters of a format, each of which takes from the text
what it stands for.
-/
namespace Sese.Text.DateTimeParser

open Foundation Io

/-- The loop of `count`. -/
def countLoop (first : UInt8) (max : ℕ) : ℕ → Bytes → ℕ
  | count, [] => count
  | count, b :: string =>
    if b ≠ 0 ∧ count ≤ max then if b = first then countLoop first max (count + 1) string else count
    else count

/-- How often the first letter of the string is repeated, up to once more than `max`. -/
def count (string : Bytes) (max : ℕ) : ℕ := countLoop (string.headD 0) max 0 string

/-- The variables that are filled in. -/
structure Fields where
  year : ℤ := 0
  mon : ℤ := 0
  day : ℤ := 0
  hour : ℤ := 0
  min : ℤ := 0
  sec : ℤ := 0
  mill : ℤ := 0
  micro : ℤ := 0
  utc : ℤ := 0
  deriving DecidableEq

/-- The variables of the loop; `p` is the place of `p_format` in the format. -/
structure State where
  p : ℕ
  input : InputBufferWrapper
  fields : Fields := {}
  deriving DecidableEq

/-- What a round leads to: `none` is `std::nullopt`. -/
abbrev Next := State ⊕ Option Fields

/-- `*(format.c_str() + p)`: there is a terminator behind the last octet. -/
def charAt (format : Bytes) (p : ℕ) : Except Fault UInt8 :=
  if p ≤ format.length then .ok (format.getD p 0) else .error .overread

/-- The letters of the macro `XX`: how many octets are read, and where the number goes. -/
def letter (ch : UInt8) : Option (ℕ × (Fields → ℤ → Fields)) :=
  if ch = 121 then some (4, fun fields v => { fields with year := v })
  else if ch = 77 then some (2, fun fields v => { fields with mon := v })
  else if ch = 100 then some (2, fun fields v => { fields with day := v })
  else if ch = 72 then some (2, fun fields v => { fields with hour := v })
  else if ch = 109 then some (2, fun fields v => { fields with min := v })
  else if ch = 115 then some (2, fun fields v => { fields with sec := v })
  else if ch = 102 then some (3, fun fields v => { fields with mill := v })
  else if ch = 114 then some (3, fun fields v => { fields with micro := v })
  else none

/-- The macro `XX`. -/
def XX (format : Bytes) (expSize : ℕ) (saveTo : Fields → ℤ → Fields) (s : State) : Next :=
  let c := count (format.drop s.p) expSize
  if c ≥ expSize then
    let (buffer, input) := s.input.read expSize
    if buffer.length ≠ expSize then .inr none
    else
      let (value, rest) := strtol (cstr buffer)
      if rest ≠ [] then .inr none
      else .inl ⟨s.p + expSize, input, saveTo s.fields value⟩
  else .inl { s with p := s.p + c }

def isSign (b : UInt8) : Bool := b = 43 ∨ b = 45

/-- The end of the case of `z`, for what was read into `buffer`. -/
def saveZone (s : State) (buffer : Bytes) (input : InputBufferWrapper) : Next :=
  let (value, rest) := strtol (cstr buffer)
  if rest ≠ [] then .inr none else .inl ⟨s.p + 1, input, { s.fields with utc := value }⟩

/-- The case of `z`; `break` goes on with the loop at the same letter. -/
def zone (s : State) : Next :=
  let (buffer, input) := s.input.read 2
  if buffer.length ≠ 2 then .inl { s with input := input }
  else if isSign (buffer.headD 0) then
    let (more, input) := input.read 1
    if more.length ≠ 1 then .inl { s with input := input }
    else saveZone s (buffer ++ more) input
  else saveZone s buffer input

/-- The loop in the case of `*`. A pass that goes on takes an octet of the input. -/
def wordLoop (format : Bytes) : ℕ → State → Except Fault State
  | 0, _ => .error .endlessLoop
  | fuel + 1, s =>
    let c := s.input.peek 1
    if c.length = 0 ∧ s.p + 1 ≤ format.length then .ok s
    else if c.headD 0 = 32 then .ok { s with p := s.p + 1 }
    else wordLoop format fuel { s with input := (s.input.trunc 1).2 }

/-- The case of `%`. -/
def escape (format : Bytes) (s : State) : Next :=
  if s.p + 1 > format.length then .inl s else .inl { s with p := s.p + 2 }

/-- The `switch`. -/
def turn (format : Bytes) (ch : UInt8) (s : State) : Except Fault Next :=
  match letter ch with
  | some (expSize, saveTo) => .ok (XX format expSize saveTo s)
  | none =>
    if ch = 122 then .ok (zone s)
    else if ch = 42 then do
      let s ← wordLoop format (s.input.rest.length + 1) s
      return .inl s
    else if ch = 37 then .ok (escape format s)
    else .ok (.inl { s with p := s.p + 1, input := (s.input.trunc 1).2 })

def round (format : Bytes) (s : State) : Except Fault Next := do
  let ch ← charAt format s.p
  if ch = 0 then return .inr (some s.fields) else turn format ch s

def start (datetime : Bytes) : State := { p := 0, input := ⟨datetime, 0⟩ }

/-- The result: microseconds since 1970, and the difference to Greenwich time in hours. -/
structure Stamp where
  timestamp : ℕ
  utc : ℤ
  deriving DecidableEq

/-- What is made of the variables behind the loop. The clock counts nanoseconds with 64 bits. -/
def Fields.stamp (fields : Fields) : Stamp :=
  let tm : Tm :=
    { tm_year := fields.year - 1900, tm_mon := fields.mon - 1, tm_mday := fields.day,
      tm_hour := fields.hour, tm_min := fields.min, tm_sec := fields.sec }
  let tp := Int.bmod (timegm tm * 10 ^ 9) (2 ^ 64)
  let tp := Int.bmod (tp + (fields.mill * 10 ^ 6 + fields.micro * 10 ^ 3)) (2 ^ 64)
  let tp := Int.bmod (tp - fields.utc * (3600 * 10 ^ 9)) (2 ^ 64)
  ⟨toUInt64 (tp.tdiv (10 ^ 3)), fields.utc⟩

/-- `parse`. There are as many rounds as there are letters, or the loop does not end. -/
def parse (format datetime : Bytes) : Except Fault (Option Stamp) :=
  if format = [] ∨ datetime = [] then .ok none
  else do
    let fields ← iterate .endlessLoop (round format) (format.length + 1) (start datetime)
    return fields.map Fields.stamp

example : parse (bytes "yyyy-MM-dd HH:mm:ss * z") (bytes "2020-01-03 19:23:51 GTM +08") =
    .ok (some ⟨1578050631000000, 8⟩) := by
  decide +kernel

/-- The letter in front asks for nothing that is not there: a zone has its two octets, and one
more behind a sign, a word has its blank, and a percent sign is not the last letter. -/
structure Ready (format : Bytes) (s : State) : Prop where
  zone : format[s.p]? = some 122 → 2 ≤ s.input.rest.length ∧
    (isSign (s.input.rest.headD 0) → 3 ≤ s.input.rest.length)
  word : format[s.p]? = some 42 → 32 ∈ s.input.rest
  escape : format[s.p]? = some 37 → s.p + 1 < format.length

variable {format : Bytes} {s : State}

theorem countLoop_le (first : UInt8) (max count : ℕ) (string : Bytes) :
    countLoop first max count string ≤ count + string.length := by
  induction string generalizing count with
  | nil => exact le_rfl
  | cons b string ih =>
    have hnext := ih (count + 1)
    rw [countLoop, List.length_cons]
    split_ifs <;> omega

theorem le_countLoop (first : UInt8) (max count : ℕ) (string : Bytes) :
    count ≤ countLoop first max count string := by
  induction string generalizing count with
  | nil => exact le_rfl
  | cons b string ih =>
    have hnext := ih (count + 1)
    rw [countLoop]
    split_ifs <;> omega

theorem count_bounds {string : Bytes} {b : UInt8} (hb : string.head? = some b) (hne : b ≠ 0) (max : ℕ) :
    1 ≤ count string max ∧ count string max ≤ string.length := by
  cases string with
  | nil => cases hb
  | cons first string =>
    obtain rfl := Option.some.inj hb
    refine ⟨?_, by simpa [count] using countLoop_le first max 0 (first :: string)⟩
    have hle := le_countLoop first max 1 string
    rw [count, List.headD_cons, countLoop, if_pos ⟨hne, Nat.zero_le _⟩, if_pos rfl]
    exact hle

def Moves (format : Bytes) (s : State) : Next → Prop
  | .inl s' => s.p < s'.p ∧ s'.p ≤ format.length
  | .inr _ => True

theorem letter_pos {ch : UInt8} {expSize : ℕ} {saveTo : Fields → ℤ → Fields}
    (h : letter ch = some (expSize, saveTo)) : 0 < expSize := by
  unfold letter at h
  split_ifs at h <;> (obtain ⟨rfl, -⟩ := Prod.mk.inj (Option.some.inj h); decide)

theorem moves_XX {ch : UInt8} (hch : format[s.p]? = some ch) (hne : ch ≠ 0) {expSize : ℕ}
    (hpos : 0 < expSize) (saveTo : Fields → ℤ → Fields) : Moves format s (XX format expSize saveTo s) := by
  have hhead : (format.drop s.p).head? = some ch := by rw [List.head?_drop, hch]
  obtain ⟨hone, hle⟩ := count_bounds hhead hne expSize
  rw [List.length_drop] at hle
  unfold XX
  dsimp only
  split_ifs
  · trivial
  · trivial
  · exact ⟨by dsimp only; omega, by dsimp only; omega⟩
  · exact ⟨by dsimp only; omega, by dsimp only; omega⟩

theorem moves_saveZone (hlt : s.p < format.length) (buffer : Bytes) (input : InputBufferWrapper) :
    Moves format s (saveZone s buffer input) := by
  unfold saveZone
  dsimp only
  split_ifs
  · trivial
  · exact ⟨Nat.lt_succ_self _, hlt⟩

theorem headD_take {u : Bytes} {n : ℕ} (hn : 0 < n) : (u.take n).headD 0 = u.headD 0 := by
  obtain ⟨k, rfl⟩ : ∃ k, n = k + 1 := ⟨n - 1, by omega⟩
  cases u <;> rfl

theorem moves_zone (hlt : s.p < format.length) (htwo : 2 ≤ s.input.rest.length)
    (hsign : isSign (s.input.rest.headD 0) → 3 ≤ s.input.rest.length) : Moves format s (zone s) := by
  have hfull : (s.input.rest.take 2).length = 2 := by
    rw [List.length_take]
    omega
  simp only [zone, InputBufferWrapper.read_of_le htwo, hfull, headD_take Nat.two_pos]
  rw [if_neg (by decide)]
  split_ifs with h hshort
  · have hthree := hsign h
    refine absurd ?_ hshort
    rw [InputBufferWrapper.length_read, InputBufferWrapper.rest_add, List.length_drop]
    omega
  · exact moves_saveZone hlt _ _
  · exact moves_saveZone hlt _ _

theorem zone_short (h : ¬ (2 ≤ s.input.rest.length ∧
      (isSign (s.input.rest.headD 0) → 3 ≤ s.input.rest.length))) :
    zone s = .inl { s with input := s.input.spend } := by
  by_cases htwo : 2 ≤ s.input.rest.length
  · have hsign : isSign (s.input.rest.headD 0) ∧ s.input.rest.length < 3 := by
      by_contra hnot
      exact h ⟨htwo, fun hs => by by_contra hlt; exact hnot ⟨hs, by omega⟩⟩
    have hfull : (s.input.rest.take 2).length = 2 := by
      rw [List.length_take]
      omega
    have hrest : (InputBufferWrapper.rest { s.input with pos := s.input.pos + 2 }).length < 1 := by
      rw [InputBufferWrapper.rest_add, List.length_drop]
      omega
    simp only [zone, InputBufferWrapper.read_of_le htwo, hfull, headD_take Nat.two_pos,
      InputBufferWrapper.read_of_lt hrest]
    rw [if_neg (by decide), if_pos hsign.1, if_pos hrest.ne]
    rfl
  · simp only [zone, InputBufferWrapper.read_of_lt (not_le.mp htwo)]
    rw [if_pos (by omega)]

theorem wordLoop_eq {fuel : ℕ} (hlt : s.p < format.length) (hfuel : s.input.rest.length < fuel) :
    ∃ input, wordLoop format fuel s =
        .ok { s with p := if 32 ∈ s.input.rest then s.p + 1 else s.p, input := input } ∧
      (32 ∉ s.input.rest → input.rest = []) := by
  induction fuel generalizing s with
  | zero => omega
  | succ fuel ih =>
    rw [wordLoop, InputBufferWrapper.peek_one]
    cases hrest : s.input.rest with
    | nil => exact ⟨s.input, by simp [hlt], fun _ => hrest⟩
    | cons b u =>
      by_cases hb : b = 32
      · subst hb
        exact ⟨s.input, by simp, by simp⟩
      · have htrunc := InputBufferWrapper.trunc_one hrest
        have hlen : u.length < fuel := by
          rw [hrest, List.length_cons] at hfuel
          omega
        obtain ⟨input, hloop, hend⟩ :=
          @ih { s with input := (s.input.trunc 1).2 } hlt (by rwa [htrunc])
        refine ⟨input, ?_, ?_⟩
        · simp only [htrunc] at hloop
          simpa [hb, Ne.symm hb] using hloop
        · simpa [htrunc, Ne.symm hb] using hend

theorem round_eq {ch : UInt8} (hch : format[s.p]? = some ch) (hne : ch ≠ 0) :
    round format s = turn format ch s := by
  have hle : s.p ≤ format.length := (List.getElem?_eq_some_iff.mp hch).1.le
  have hget : format.getD s.p 0 = ch := by rw [List.getD_eq_getElem?_getD, hch, Option.getD_some]
  rw [round, charAt, if_pos hle, hget, ok_bind, if_neg hne]

theorem lt_of_getElem? {ch : UInt8} (hch : format[s.p]? = some ch) : s.p < format.length :=
  (List.getElem?_eq_some_iff.mp hch).1

theorem turn_of_ready (h : Ready format s) {ch : UInt8} (hch : format[s.p]? = some ch)
    (hne : ch ≠ 0) : ∃ next, turn format ch s = .ok next ∧ Moves format s next := by
  have hlt := lt_of_getElem? hch
  unfold turn
  cases hletter : letter ch with
  | some entry => exact ⟨_, rfl, moves_XX hch hne (letter_pos hletter) entry.2⟩
  | none =>
    dsimp only
    split_ifs with hzone hword hescape
    · subst hzone
      exact ⟨_, rfl, moves_zone hlt (h.zone hch).1 (h.zone hch).2⟩
    · subst hword
      obtain ⟨input, hloop, -⟩ := wordLoop_eq hlt (Nat.lt_succ_self s.input.rest.length)
      rw [if_pos (h.word hch)] at hloop
      rw [hloop]
      exact ⟨_, rfl, Nat.lt_succ_self _, hlt⟩
    · subst hescape
      have hbehind := h.escape hch
      refine ⟨.inl { s with p := s.p + 2 }, ?_, ?_, ?_⟩
      · rw [escape, if_neg (by omega)]
      · dsimp only
        omega
      · dsimp only
        omega
    · exact ⟨_, rfl, Nat.lt_succ_self _, hlt⟩

theorem round_of_ready (h : Ready format s) (hle : s.p ≤ format.length) :
    ∃ next, round format s = .ok next ∧ Moves format s next := by
  cases hch : format[s.p]? with
  | none =>
    have hget : format.getD s.p 0 = 0 := by rw [List.getD_eq_getElem?_getD, hch, Option.getD_none]
    refine ⟨.inr (some s.fields), ?_, trivial⟩
    rw [round, charAt, if_pos hle, hget, ok_bind, if_pos rfl]
    rfl
  | some ch =>
    by_cases hne : ch = 0
    · subst hne
      have hget : format.getD s.p 0 = 0 := by rw [List.getD_eq_getElem?_getD, hch, Option.getD_some]
      refine ⟨.inr (some s.fields), ?_, trivial⟩
      rw [round, charAt, if_pos hle, hget, ok_bind, if_pos rfl]
      rfl
    · rw [round_eq hch hne]
      exact turn_of_ready h hch hne

theorem round_of_not_ready (h : ¬ Ready format s) : ∃ s', round format s = .ok (.inl s') ∧
    (s'.p = s.p ∧ round format s' = .ok (.inl s') ∨ format.length < s'.p) := by
  by_cases hzone : format[s.p]? = some 122 ∧ ¬ (2 ≤ s.input.rest.length ∧
      (isSign (s.input.rest.headD 0) → 3 ≤ s.input.rest.length))
  · obtain ⟨hch, hshort⟩ := hzone
    refine ⟨{ s with input := s.input.spend }, ?_, .inl ⟨rfl, ?_⟩⟩
    · rw [round_eq hch (by decide)]
      change Except.ok (zone s) = _
      rw [zone_short hshort]
    · rw [@round_eq _ { s with input := s.input.spend } _ hch (by decide)]
      change Except.ok (zone _) = _
      rw [zone_short (by simp)]
      rfl
  · by_cases hword : format[s.p]? = some 42 ∧ 32 ∉ s.input.rest
    · obtain ⟨hch, hblank⟩ := hword
      have hlt := lt_of_getElem? hch
      obtain ⟨input, hloop, hend⟩ := wordLoop_eq hlt (Nat.lt_succ_self s.input.rest.length)
      rw [if_neg hblank] at hloop
      refine ⟨{ s with input := input }, ?_, .inl ⟨rfl, ?_⟩⟩
      · rw [round_eq hch (by decide)]
        change (wordLoop format _ s >>= _) = _
        rw [hloop]
        rfl
      · rw [@round_eq _ { s with input := input } _ hch (by decide)]
        change (wordLoop format _ _ >>= _) = _
        have hstay : wordLoop format (input.rest.length + 1) { s with input := input } =
            .ok { s with input := input } := by
          rw [wordLoop, InputBufferWrapper.peek_one, hend hblank]
          simp [hlt]
        rw [hstay]
        rfl
    · have hescape : format[s.p]? = some 37 ∧ format.length ≤ s.p + 1 := by
        by_contra hnot
        refine h ⟨?_, ?_, ?_⟩
        · intro hch
          by_contra hshort
          exact hzone ⟨hch, hshort⟩
        · intro hch
          by_contra hblank
          exact hword ⟨hch, hblank⟩
        · intro hch
          by_contra hlast
          exact hnot ⟨hch, by omega⟩
      have hlt := lt_of_getElem? hescape.1
      refine ⟨{ s with p := s.p + 2 }, ?_, .inr (by dsimp only; omega)⟩
      rw [round_eq hescape.1 (by decide)]
      change Except.ok (escape format s) = _
      rw [escape, if_neg (by omega)]

def Reached (format datetime : Bytes) (s : State) : Prop :=
  (format ≠ [] ∧ datetime ≠ []) ∧ Visits (round format) (start datetime) s

variable {datetime : Bytes}

theorem Reached.next {s' : State} (h : Reached format datetime s)
    (hround : round format s = .ok (.inl s')) : Reached format datetime s' :=
  ⟨h.1, h.2.tail hround⟩

/-- While every letter is ready, the loop does not leave the format. -/
theorem Reached.le (hready : ∀ s, Reached format datetime s → Ready format s)
    (h : Reached format datetime s) : s.p ≤ format.length := by
  obtain ⟨hne, hvisits⟩ := h
  induction hvisits with
  | refl => exact Nat.zero_le _
  | @tail t s' hvisits hround ih =>
    obtain ⟨next, hnext, hmoves⟩ := round_of_ready (hready t ⟨hne, hvisits⟩) ih
    rw [hround] at hnext
    obtain rfl := Except.ok.inj hnext
    exact hmoves.2

/-- Every round but the last one moves on, so that the loop ends within the letters that are left. -/
theorem iterate_returns (hready : ∀ s, Reached format datetime s → Ready format s) {fuel : ℕ}
    (h : Reached format datetime s) (hfuel : format.length - s.p < fuel) :
    Returns (iterate .endlessLoop (round format) fuel s) := by
  induction fuel generalizing s with
  | zero => omega
  | succ fuel ih =>
    obtain ⟨next, hround, hmoves⟩ := round_of_ready (hready s h) (h.le hready)
    cases next with
    | inl s' =>
      rw [iterate_more hround]
      have hlt := hmoves.1
      have hle := hmoves.2
      exact ih (h.next hround) (by omega)
    | inr fields =>
      rw [iterate_done hround]
      exact returns_ok fields

theorem parse_returns (hready : ∀ s, Reached format datetime s → Ready format s) :
    Returns (parse format datetime) := by
  unfold parse
  split_ifs with hempty
  · exact returns_ok none
  · rw [not_or] at hempty
    obtain ⟨fields, hfields⟩ := @iterate_returns _ (start datetime) _ hready (format.length + 1)
      ⟨hempty, .refl⟩ (by simp [start])
    exact ⟨_, by rw [hfields]; rfl⟩

/-- With more rounds than letters the loop would not come to an end either. -/
theorem ready_of_delivers {fields : Option Fields}
    (hends : Delivers (round format) (start datetime) fields) (h : Reached format datetime s) :
    Ready format s := by
  by_contra hnot
  obtain ⟨s', hround, ⟨-, hstay⟩ | hout⟩ := round_of_not_ready hnot
  · exact not_delivers_of_stay hstay ((h.next hround).2.delivers.mp hends)
  · have herror : round format s' = .error .overread := by
      rw [round, charAt, if_neg (by omega)]
      rfl
    cases (h.next hround).2.delivers.mp hends with
    | done hdone => cases herror.symm.trans hdone
    | more hmore => cases herror.symm.trans hmore

theorem returns_parse_iff (hformat : format ≠ []) (hdatetime : datetime ≠ []) :
    Returns (parse format datetime) ↔ ∃ fields, Delivers (round format) (start datetime) fields := by
  constructor
  · rintro ⟨stamp, hparse⟩
    rw [parse, if_neg (by simp [hformat, hdatetime])] at hparse
    obtain ⟨fields, hfields, -⟩ := bind_eq_ok.mp hparse
    exact ⟨fields, (delivers_iff_iterate .endlessLoop).mpr ⟨_, hfields⟩⟩
  · rintro ⟨fields, hends⟩
    exact parse_returns fun s h => ready_of_delivers hends h

/-- `parse` comes back, every iteration of its loop advances the format position or returns, and
the position stays within the format, exactly when every letter that the loop comes to is ready. -/
theorem parse_terminates_iff (format datetime : Bytes) :
    (Returns (parse format datetime) ∧ ∀ s, Reached format datetime s →
        s.p ≤ format.length ∧ ∀ s', round format s = .ok (.inl s') → s.p < s'.p) ↔
      ∀ s, Reached format datetime s → Ready format s := by
  constructor
  · rintro ⟨-, hmoves⟩ s h
    by_contra hnot
    obtain ⟨s', hround, ⟨hstay, -⟩ | hout⟩ := round_of_not_ready hnot
    · have hlt := (hmoves s h).2 s' hround
      omega
    · have hle := (hmoves s' (h.next hround)).1
      omega
  · intro hready
    refine ⟨parse_returns hready, ?_⟩
    intro s h
    refine ⟨h.le hready, ?_⟩
    intro s' hround
    obtain ⟨next, hnext, hmoves⟩ := round_of_ready (hready s h) (h.le hready)
    rw [hround] at hnext
    obtain rfl := Except.ok.inj hnext
    exact hmoves.1

/-- A zone with one octet. -/
theorem not_terminates_zone : ¬ Returns (parse (bytes "z") (bytes "1")) ∧
    Reached (bytes "z") (bytes "1") { p := 0, input := ⟨bytes "1", 1⟩ } ∧
    round (bytes "z") { p := 0, input := ⟨bytes "1", 1⟩ } =
      .ok (.inl { p := 0, input := ⟨bytes "1", 1⟩ }) := by
  have hstay : round (bytes "z") { p := 0, input := ⟨bytes "1", 1⟩ } =
      .ok (.inl { p := 0, input := ⟨bytes "1", 1⟩ }) := by decide
  have hreached : Visits (round (bytes "z")) (start (bytes "1")) { p := 0, input := ⟨bytes "1", 1⟩ } :=
    .single (by decide)
  refine ⟨?_, ⟨⟨by decide, by decide⟩, hreached⟩, hstay⟩
  rw [returns_parse_iff (by decide) (by decide)]
  rintro ⟨fields, hends⟩
  exact not_delivers_of_stay hstay (hreached.delivers.mp hends)

end Sese.Text.DateTimeParser
