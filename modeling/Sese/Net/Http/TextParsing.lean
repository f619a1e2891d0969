import Sese.Io.InputBufferWrapper
import Sese.Net.Http.SetCookie

/-!
# Which texts of HTTP/1 the parsers survive

`recvRequest`, `recvResponse`, `recvHeader` and `parseFromSetCookie` come back unless a header
line ends right behind its separator, a response has fewer than two pieces in its first line,
or an attribute of a cookie has a value that the conversions throw at. `parseFromCookie`
has no conversions and looks at the pieces that are there; it always comes back.
-/
namespace Sese.Net.Http

open Foundation
open Sese.Io

theorem returns_parseFromGreenwich_iff (text : Bytes) :
    Returns (DateTimeFormatter.parseFromGreenwich text) ↔ 8 ≤ text.length := by
  unfold DateTimeFormatter.parseFromGreenwich
  by_cases hlen : text.length < 8
  · rw [if_pos hlen]
    exact ⟨fun h => absurd h (not_returns_error _), fun h => by omega⟩
  · rw [if_neg hlen]
    exact ⟨fun _ => by omega, fun _ => returns_ok _⟩

/-- An attribute of a cookie whose value can be converted. -/
def AttributeReadable (key value : Bytes) : Prop :=
  (strcmpDoNotCase key (bytes "max-age") → Numeric value) ∧
    (strcmpDoNotCase key (bytes "expires") → 8 ≤ value.length)

/-- A text that `parseFromSetCookie` survives. The attributes are looked at when the first
piece has a `=`. -/
def CookieReadable (text : Bytes) : Prop :=
  ∀ first attributes, split text (bytes "; ") = first :: attributes → (keyValue first).isSome →
    ∀ one ∈ attributes, ∀ key value, keyValue one = some (key, value) → AttributeReadable key value

theorem returns_setValue_iff (cookie : Cookie) (key value : Bytes) :
    Returns (cookie.setValue key value) ↔ AttributeReadable key value := by
  have hdistinct : strcmpDoNotCase key (bytes "max-age") → ¬ strcmpDoNotCase key (bytes "expires") := by
    intro hage hexpires
    simp only [strcmpDoNotCase, decide_eq_true_eq] at hage hexpires
    rw [hage] at hexpires
    exact absurd hexpires (by decide)
  unfold Cookie.setValue AttributeReadable
  split_ifs with hage hexpires
  · rw [returns_bind]
    constructor
    · rintro ⟨age, hage', -⟩
      exact ⟨fun _ => (returns_stoll_iff value).mp ⟨age, hage'⟩,
        fun h => absurd h (hdistinct hage)⟩
    · rintro ⟨hnumeric, -⟩
      obtain ⟨age, hage'⟩ := (returns_stoll_iff value).mpr (hnumeric hage)
      exact ⟨age, hage', returns_ok _⟩
  · rw [returns_bind]
    constructor
    · rintro ⟨time, htime, -⟩
      exact ⟨fun h => absurd h hage, fun _ => (returns_parseFromGreenwich_iff value).mp ⟨time, htime⟩⟩
    · rintro ⟨-, hlen⟩
      obtain ⟨time, htime⟩ := (returns_parseFromGreenwich_iff value).mpr (hlen hexpires)
      exact ⟨time, htime, returns_ok _⟩
  all_goals
    exact ⟨fun _ => ⟨fun h => absurd h hage, fun h => absurd h hexpires⟩, fun _ => returns_ok _⟩

theorem returns_setAttributes_iff (attributes : List Bytes) (cookie : Cookie) :
    Returns (setAttributes attributes cookie) ↔ ∀ one ∈ attributes, ∀ key value,
      keyValue one = some (key, value) → AttributeReadable key value := by
  induction attributes generalizing cookie with
  | nil => simp [setAttributes, returns_ok]
  | cons one attributes ih =>
    rw [List.forall_mem_cons, setAttributes]
    split
    case h_1 key value hone =>
      rw [returns_bind]
      constructor
      · rintro ⟨cookie', hset, hrest⟩
        refine ⟨?_, (ih cookie').mp hrest⟩
        intro key' value' hone'
        rw [hone, Option.some.injEq, Prod.mk.injEq] at hone'
        obtain ⟨rfl, rfl⟩ := hone'
        exact (returns_setValue_iff cookie key value).mp ⟨cookie', hset⟩
      · rintro ⟨hhead, htail⟩
        obtain ⟨cookie', hset⟩ := (returns_setValue_iff cookie key value).mpr (hhead key value hone)
        exact ⟨cookie', hset, (ih cookie').mpr htail⟩
    case h_2 hone =>
      rw [ih]
      constructor
      · intro h
        refine ⟨fun key value hone' => ?_, h⟩
        rw [hone] at hone'
        cases hone'
      · exact fun h => h.2

theorem returns_parseFromSetCookie_iff (text : Bytes) :
    Returns (parseFromSetCookie text) ↔ CookieReadable text := by
  unfold parseFromSetCookie CookieReadable
  split
  case h_1 hsplit =>
    refine ⟨fun _ first attributes h => ?_, fun _ => returns_ok _⟩
    rw [hsplit] at h
    cases h
  case h_2 first attributes hsplit =>
    split
    case h_1 hfirst =>
      refine ⟨fun _ first' attributes' h hsome => ?_, fun _ => returns_ok _⟩
      rw [hsplit, List.cons.injEq] at h
      rw [← h.1, hfirst] at hsome
      cases hsome
    case h_2 name value hfirst =>
      rw [returns_bind]
      constructor
      · rintro ⟨cookie, hset, -⟩ first' attributes' h -
        rw [hsplit, List.cons.injEq] at h
        rw [← h.2]
        exact (returns_setAttributes_iff attributes _).mp ⟨cookie, hset⟩
      · intro h
        obtain ⟨cookie, hset⟩ := (returns_setAttributes_iff attributes _).mpr
          (h first attributes hsplit (by rw [hfirst]; rfl))
        exact ⟨cookie, hset, returns_ok _⟩

/-- The line that a text starts with and what is behind it: the octet after the carriage
return is dropped. There is no line if it has no end, or is too long. -/
def takeLine (u : Bytes) : Option (Bytes × Bytes) :=
  let line := u.takeWhile (· ≠ 13)
  if line.length < u.length ∧ line.length ≤ httpMaxSingleLine then
    some (line, u.drop (line.length + 2))
  else none

def IsSeparator (b : UInt8) : Prop := b = 58 ∨ b = 32

instance : DecidablePred IsSeparator := fun b => inferInstanceAs (Decidable (b = 58 ∨ b = 32))

def Cut (line name rest : Bytes) : Prop :=
  ∃ separator, line = name ++ separator :: rest ∧ IsSeparator separator ∧
    ∀ b ∈ name, ¬ IsSeparator b

def Separated (line : Bytes) : Prop := ∃ b ∈ line, IsSeparator b

/-- The lines of a text that `recvHeader` takes for fields: up to the first one that is empty
or has no separator. -/
inductive FieldLine : Bytes → Bytes → Prop
  | first {u line rest : Bytes} : takeLine u = some (line, rest) → line ≠ [] → FieldLine u line
  | later {u first rest line : Bytes} : takeLine u = some (first, rest) → first ≠ [] →
      Separated first → FieldLine rest line → FieldLine u line

/-- A field line that `recvHeader` survives. -/
def FieldReadable (is_resp : Bool) (line : Bytes) : Prop :=
  ∀ name rest, Cut line name rest → rest ≠ [] ∧
    (is_resp → strcmpDoNotCase name (bytes "Set-Cookie") → CookieReadable (rest.drop 1))

/-- Field lines that `recvHeader` survives. -/
def FieldsReadable (is_resp : Bool) (u : Bytes) : Prop :=
  ∀ line, FieldLine u line → FieldReadable is_resp line

/-- A text that `recvRequest` survives. -/
def RequestReadable (u : Bytes) : Prop :=
  ∀ line rest, takeLine u = some (line, rest) → (pieces line (bytes " ")).length = 3 →
    FieldsReadable false rest

/-- A text that `recvResponse` survives. -/
def ResponseReadable (u : Bytes) : Prop :=
  ∀ line rest, takeLine u = some (line, rest) → 2 ≤ (pieces line (bytes " ")).length ∧
    FieldsReadable true rest

theorem cut_of_separated {line : Bytes} (h : Separated line) : ∃ name rest, Cut line name rest := by
  induction line with
  | nil =>
    obtain ⟨b, hb, -⟩ := h
    cases hb
  | cons c line ih =>
    by_cases hc : IsSeparator c
    · exact ⟨[], line, c, rfl, hc, by simp⟩
    · obtain ⟨b, hb, hsep⟩ := h
      have hline : Separated line := by
        rcases List.mem_cons.mp hb with rfl | hb
        · exact absurd hsep hc
        · exact ⟨b, hb, hsep⟩
      obtain ⟨name, rest, separator, rfl, hseparator, hname⟩ := ih hline
      exact ⟨c :: name, rest, separator, rfl, hseparator, List.forall_mem_cons.mpr ⟨hc, hname⟩⟩

theorem Cut.name_eq {line name rest : Bytes} (h : Cut line name rest) :
    name = line.takeWhile fun b => ¬ (b = 58 ∨ b = 32) := by
  obtain ⟨separator, rfl, hseparator, hname⟩ := h
  rw [takeWhile_append_of_head]
  · exact fun b hb => decide_eq_true (hname b hb)
  · intro b hb
    obtain rfl : separator = b := by simpa using hb
    rw [decide_eq_true_eq, not_not]
    exact hseparator

theorem Cut.unique {line name rest name' rest' : Bytes} (h : Cut line name rest)
    (h' : Cut line name' rest') : name' = name ∧ rest' = rest := by
  obtain rfl : name' = name := h'.name_eq.trans h.name_eq.symm
  obtain ⟨separator, rfl, -, -⟩ := h
  obtain ⟨separator', heq, -, -⟩ := h'
  exact ⟨rfl, (List.cons.inj (List.append_cancel_left heq)).2.symm⟩

theorem Cut.fieldOf {line name rest : Bytes} (h : Cut line name rest) :
    fieldOf line = if rest = [] then .error .terminate else .ok (some (name, rest.drop 1)) := by
  obtain ⟨separator, rfl, hseparator, hname⟩ := h
  have hfind : (name ++ separator :: rest).findIdx? (fun b => b = 58 ∨ b = 32) = some name.length := by
    rw [List.findIdx?_append, List.findIdx?_eq_none_iff.mpr]
    · have hfound : separator = 58 ∨ separator = 32 := hseparator
      rw [List.findIdx?_cons, if_pos (decide_eq_true hfound)]
      simp
    · exact fun b hb => decide_eq_false (hname b hb)
  rw [Http.fieldOf, hfind]
  cases rest with
  | nil => simp
  | cons b rest =>
    have hlen : ¬ (name ++ separator :: b :: rest).length < name.length + 2 := by simp
    simp only [if_neg hlen, List.take_left, List.drop_append, List.drop_eq_nil_of_le (Nat.le_add_right _ 2)]
    simp

theorem fieldOf_of_not_separated {line : Bytes} (h : ¬ Separated line) : fieldOf line = .ok none := by
  have hfind : line.findIdx? (fun b => b = 58 ∨ b = 32) = none := by
    rw [List.findIdx?_eq_none_iff]
    exact fun b hb => decide_eq_false fun hsep => h ⟨b, hb, hsep⟩
  rw [fieldOf, hfind]

theorem fieldsReadable_of_none {is_resp : Bool} {u : Bytes} (h : takeLine u = none) :
    FieldsReadable is_resp u := by
  rintro line (⟨htake, -⟩ | ⟨htake, -, -, -⟩)
  · rw [h] at htake
    cases htake
  · rw [h] at htake
    cases htake

theorem fieldsReadable_of_empty {is_resp : Bool} {u rest : Bytes} (h : takeLine u = some ([], rest)) :
    FieldsReadable is_resp u := by
  rintro line (⟨htake, hne⟩ | ⟨htake, hne, -, -⟩)
  all_goals
    rw [h, Option.some.injEq, Prod.mk.injEq] at htake
    exact absurd htake.1.symm hne

theorem fieldsReadable_iff {is_resp : Bool} {u line rest : Bytes} (h : takeLine u = some (line, rest))
    (hne : line ≠ []) : FieldsReadable is_resp u ↔
      FieldReadable is_resp line ∧ (Separated line → FieldsReadable is_resp rest) := by
  constructor
  · intro hu
    exact ⟨hu line (.first h hne), fun hsep later hlater => hu later (.later h hne hsep hlater)⟩
  · rintro ⟨hline, hrest⟩ line' (⟨htake, -⟩ | ⟨htake, -, hsep, hlater⟩)
    all_goals
      rw [h, Option.some.injEq, Prod.mk.injEq] at htake
      obtain ⟨rfl, rfl⟩ := htake
    · exact hline
    · exact hrest hsep line' hlater

theorem length_of_takeLine {u line rest : Bytes} (h : takeLine u = some (line, rest)) :
    rest.length < u.length := by
  unfold takeLine at h
  dsimp only at h
  split_ifs at h with hlen
  simp only [Option.some.injEq, Prod.mk.injEq] at h
  rw [← h.2, List.length_drop]
  omega

section Reading

variable {σ : Type} {Holds : σ → Bytes → Prop} {Spent : σ → Prop}

/-- The octets `u` are still to be read, and a read behind the end may have happened. -/
def At (Holds : σ → Bytes → Prop) (Spent : σ → Prop) (s : σ) (u : Bytes) : Prop :=
  Holds s u ∨ u = [] ∧ Spent s

theorem at_of_behind {s : σ} {u : Bytes} (h : Behind Holds Spent s u) : At Holds Spent s u.tail := by
  cases u with
  | nil => exact .inr ⟨rfl, h⟩
  | cons b u => exact .inl h

variable [InputStream σ]

theorem getLineLoop_end (h : Reads Holds Spent) (builder : Bytes) {u : Bytes} {s : σ} {i : ℕ}
    (hs : Holds s u) (hline : (13 : UInt8) ∉ u) (hi : u.length < i) :
    ∃ builder' s', getLineLoop i s builder = .ok (false, builder', s') := by
  induction u generalizing s i builder with
  | nil =>
    obtain ⟨i, rfl⟩ : ∃ k, i = k + 1 := ⟨i - 1, by simp at hi; omega⟩
    obtain ⟨s', hread, -⟩ := h.read_end hs Nat.one_pos
    exact ⟨builder, s', by simp [getLineLoop, hread]⟩
  | cons b u ih =>
    rw [List.mem_cons, not_or] at hline
    obtain ⟨i, rfl⟩ : ∃ k, i = k + 1 := ⟨i - 1, by simp at hi; omega⟩
    obtain ⟨s₁, hread, hs₁⟩ := h.read_one hs
    obtain ⟨builder', s', hloop⟩ := ih (builder ++ [b]) (i := i) hs₁ hline.2 (by simpa using hi)
    have hb : b ≠ 13 := Ne.symm hline.1
    exact ⟨builder', s', by simp [getLineLoop, hread, hb, hloop]⟩

/-- A text with a carriage return, cut at the first one. -/
theorem cut_at_return {u : Bytes} (h : (u.takeWhile (· ≠ 13)).length < u.length) :
    ∃ rest, u = u.takeWhile (· ≠ 13) ++ 13 :: rest := by
  have hsplit := List.takeWhile_append_dropWhile (p := (· ≠ (13 : UInt8))) (l := u)
  have hhead := head_dropWhile (p := (· ≠ (13 : UInt8))) u
  cases hrest : u.dropWhile (· ≠ 13) with
  | nil =>
    rw [hrest, List.append_nil] at hsplit
    rw [hsplit] at h
    exact absurd h (lt_irrefl _)
  | cons b rest =>
    rw [hrest] at hsplit hhead
    obtain rfl : b = 13 := by simpa using hhead b rfl
    exact ⟨rest, hsplit.symm⟩

theorem getLine_of_takeLine (h : Reads Holds Spent) {u line rest : Bytes} {s : σ}
    (hs : At Holds Spent s u) (htake : takeLine u = some (line, rest)) :
    ∃ s', getLine s [] = .ok (true, line, s') ∧ At Holds Spent s' rest := by
  unfold takeLine at htake
  dsimp only at htake
  split_ifs at htake with hlen
  simp only [Option.some.injEq, Prod.mk.injEq] at htake
  obtain ⟨hline, hrest⟩ := htake
  obtain ⟨behind, hu⟩ := cut_at_return hlen.1
  have hcr : (13 : UInt8) ∉ line := by
    rw [← hline]
    intro hmem
    simpa using List.mem_takeWhile_imp hmem
  rw [hline] at hu hlen hrest
  have hdrop : rest = behind.tail := by
    rw [← hrest, hu]
    simp
  rcases hs with hs | ⟨rfl, -⟩
  · rw [hu] at hs
    obtain ⟨s', hget, hs'⟩ := getLine_eq h.octets hs hcr hlen.2
    rw [hdrop]
    exact ⟨s', hget, at_of_behind hs'⟩
  · simp at hu

theorem getLine_of_none (h : Reads Holds Spent) (hspent : StaysSpent Spent) {u : Bytes} {s : σ}
    (hs : At Holds Spent s u) (htake : takeLine u = none) :
    ∃ builder s', getLine s [] = .ok (false, builder, s') := by
  rcases hs with hs | ⟨rfl, hs⟩
  · have hsplit := List.takeWhile_append_dropWhile (p := (· ≠ (13 : UInt8))) (l := u)
    have hcr : (13 : UInt8) ∉ u.takeWhile (· ≠ 13) := by
      intro hmem
      simpa using List.mem_takeWhile_imp hmem
    by_cases hlen : (u.takeWhile (· ≠ 13)).length ≤ httpMaxSingleLine
    · have hall : u.takeWhile (· ≠ 13) = u := by
        unfold takeLine at htake
        dsimp only at htake
        split_ifs at htake with hshort
        apply List.IsPrefix.eq_of_length (List.takeWhile_prefix _)
        have hle := (List.takeWhile_prefix (p := (· ≠ (13 : UInt8))) (l := u)).length_le
        rw [not_and_or] at hshort
        omega
      rw [hall] at hcr hlen
      exact getLineLoop_end h [] hs hcr (Nat.lt_succ_of_le hlen)
    · rw [← hsplit] at hs
      exact getLine_long h.octets hs hcr (Nat.lt_of_not_le hlen)
  · obtain ⟨s', hread, -⟩ := hspent s 1 hs
    exact ⟨[], s', by simp [getLine, getLineLoop, hread]⟩

theorem returns_keepField_iff (is_resp : Bool) (header : Header) (cookies : Option CookieMap)
    (name value : Bytes) : Returns (keepField is_resp header cookies (name, value)) ↔
      (is_resp → strcmpDoNotCase name (bytes "Set-Cookie") → CookieReadable value) := by
  unfold keepField
  split_ifs with hresp hname
  · rw [returns_bind]
    constructor
    · rintro ⟨cookie, hparse, -⟩ - -
      exact (returns_parseFromSetCookie_iff value).mp ⟨cookie, hparse⟩
    · intro h
      obtain ⟨cookie, hparse⟩ := (returns_parseFromSetCookie_iff value).mpr (h hresp hname)
      refine ⟨cookie, hparse, ?_⟩
      cases cookie with
      | none => exact returns_ok _
      | some cookie => exact returns_ok _
  · exact ⟨fun _ _ h => absurd h hname, fun _ => returns_ok _⟩
  · exact ⟨fun _ h => absurd h hresp, fun _ => returns_ok _⟩

/-- One round of the loop. The line can be read, and the loop goes on behind it when it has a
separator; whether that comes back does not depend on what was kept. -/
theorem returns_field_iff (is_resp : Bool) (header : Header) (cookies : Option CookieMap)
    (line : Bytes) {β : Type} (refused : β) {next : Header × Option CookieMap → Except Fault β}
    {P : Prop} (hnext : ∀ stored, Returns (next stored) ↔ P) :
    Returns (fieldOf line >>= fun field =>
        match field with
        | none => .ok refused
        | some field => keepField is_resp header cookies field >>= next) ↔
      FieldReadable is_resp line ∧ (Separated line → P) := by
  by_cases hsep : Separated line
  · obtain ⟨name, rest, hcut⟩ := cut_of_separated hsep
    have hreadable : FieldReadable is_resp line ↔ rest ≠ [] ∧ (is_resp →
        strcmpDoNotCase name (bytes "Set-Cookie") → CookieReadable (rest.drop 1)) := by
      constructor
      · exact fun h => h name rest hcut
      · intro h name' rest' hcut'
        obtain ⟨rfl, rfl⟩ := hcut.unique hcut'
        exact h
    rw [hreadable, hcut.fieldOf]
    by_cases hrest : rest = []
    · simp [hrest, not_returns_error]
    · rw [if_neg hrest, ok_bind]
      dsimp only
      rw [returns_bind, ← returns_keepField_iff is_resp header cookies name (rest.drop 1)]
      simp only [hnext]
      constructor
      · rintro ⟨stored, hstored, hP⟩
        exact ⟨⟨hrest, stored, hstored⟩, fun _ => hP⟩
      · rintro ⟨⟨-, stored, hstored⟩, hP⟩
        exact ⟨stored, hstored, hP hsep⟩
  · rw [fieldOf_of_not_separated hsep, ok_bind]
    constructor
    · intro _
      refine ⟨?_, fun h => absurd h hsep⟩
      rintro name rest ⟨separator, rfl, hseparator, -⟩
      exact absurd ⟨separator, by simp, hseparator⟩ hsep
    · exact fun _ => returns_ok _

theorem returns_recvFieldsLoop_iff (h : Reads Holds Spent) (hspent : StaysSpent Spent)
    (is_resp : Bool) (fuel : ℕ) {s : σ} {u : Bytes} (hs : At Holds Spent s u)
    (hfuel : u.length < fuel) (header : Header) (cookies : Option CookieMap) :
    Returns (recvFieldsLoop is_resp fuel s header cookies) ↔ FieldsReadable is_resp u := by
  induction fuel generalizing s u header cookies with
  | zero => omega
  | succ fuel ih =>
    rw [recvFieldsLoop]
    cases htake : takeLine u with
    | none =>
      obtain ⟨builder, s', hget⟩ := getLine_of_none h hspent hs htake
      rw [hget]
      exact ⟨fun _ => fieldsReadable_of_none htake, fun _ => returns_ok _⟩
    | some taken =>
      obtain ⟨line, rest⟩ := taken
      obtain ⟨s', hget, hs'⟩ := getLine_of_takeLine h hs htake
      have hlen := length_of_takeLine htake
      rw [hget, ok_bind]
      dsimp only
      rw [if_neg (by simp)]
      by_cases hne : line = []
      · subst hne
        exact ⟨fun _ => fieldsReadable_of_empty htake, fun _ => returns_ok _⟩
      · rw [if_neg (by simpa using hne), fieldsReadable_iff htake hne]
        exact returns_field_iff is_resp header cookies line _
          fun stored => ih hs' (by omega) stored.1 stored.2

theorem returns_recvFields_iff (h : Reads Holds Spent) (hspent : StaysSpent Spent)
    (is_resp : Bool) {s : σ} {u : Bytes} (hs : At Holds Spent s u) (header : Header) :
    Returns (recvFields is_resp s header) ↔ FieldsReadable is_resp u := by
  apply returns_recvFieldsLoop_iff h hspent is_resp _ hs
  rcases hs with hs | ⟨rfl, -⟩
  · exact Nat.lt_succ_of_le (h.left_le hs)
  · exact Nat.succ_pos _

theorem returns_recvRequest_iff (h : Reads Holds Spent) (hspent : StaysSpent Spent) {s : σ}
    {u : Bytes} (hs : At Holds Spent s u) (request : Request) :
    Returns (recvRequest s request) ↔ RequestReadable u := by
  unfold recvRequest RequestReadable
  cases htake : takeLine u with
  | none =>
    obtain ⟨builder, s', hget⟩ := getLine_of_none h hspent hs htake
    rw [hget]
    exact ⟨fun _ line rest htake => (by cases htake), fun _ => returns_ok _⟩
  | some taken =>
    obtain ⟨line, rest⟩ := taken
    obtain ⟨s', hget, hs'⟩ := getLine_of_takeLine h hs htake
    rw [hget, ok_bind]
    dsimp only
    rw [if_neg (by simp)]
    simp only [Option.some.injEq, Prod.mk.injEq]
    split
    case h_1 method url version hpieces =>
      rw [← recvFields_request, returns_bind]
      have hfields := returns_recvFields_iff h hspent false hs'
        (request.setFirstLine method url version).header
      constructor
      · rintro ⟨r, hr, -⟩ line' rest' ⟨rfl, rfl⟩ -
        exact hfields.mp ⟨r, hr⟩
      · intro hreadable
        obtain ⟨r, hr⟩ := hfields.mpr (hreadable line rest ⟨rfl, rfl⟩ (by rw [hpieces]; rfl))
        exact ⟨r, hr, returns_ok _⟩
    case h_2 hpieces =>
      refine ⟨?_, fun _ => returns_ok _⟩
      rintro - line' rest' ⟨rfl, rfl⟩ hlen
      obtain ⟨method, url, version, heq⟩ := List.length_eq_three.mp hlen
      exact absurd heq (hpieces method url version)

theorem returns_recvResponse_iff (h : Reads Holds Spent) (hspent : StaysSpent Spent) {s : σ}
    {u : Bytes} (hs : At Holds Spent s u) (response : ResponseHeader) :
    Returns (recvResponse s response) ↔ ResponseReadable u := by
  unfold recvResponse ResponseReadable
  cases htake : takeLine u with
  | none =>
    obtain ⟨builder, s', hget⟩ := getLine_of_none h hspent hs htake
    rw [hget]
    exact ⟨fun _ line rest htake => (by cases htake), fun _ => returns_ok _⟩
  | some taken =>
    obtain ⟨line, rest⟩ := taken
    obtain ⟨s', hget, hs'⟩ := getLine_of_takeLine h hs htake
    rw [hget, ok_bind]
    dsimp only
    rw [if_neg (by simp)]
    simp only [Option.some.injEq, Prod.mk.injEq]
    split
    case h_1 version code others hpieces =>
      rw [returns_bind]
      have hfields := returns_recvFields_iff h hspent true hs' response.header
      constructor
      · rintro ⟨r, hr, -⟩ line' rest' ⟨rfl, rfl⟩
        refine ⟨?_, hfields.mp ⟨r, hr⟩⟩
        rw [hpieces]
        exact Nat.le_add_left 2 _
      · intro hreadable
        obtain ⟨r, hr⟩ := hfields.mpr (hreadable line rest ⟨rfl, rfl⟩).2
        exact ⟨r, hr, returns_ok _⟩
    case h_2 hpieces =>
      refine ⟨fun h => absurd h (not_returns_error _), fun hreadable => ?_⟩
      have hlen := (hreadable line rest ⟨rfl, rfl⟩).1
      match hp : pieces line (bytes " "), hlen with
      | version :: code :: others, _ => exact absurd hp (hpieces version code others)

/-- The texts of HTTP/1 that the parsers come back from, for every stream. -/
theorem parsers_return_iff (h : Reads Holds Spent) (hspent : StaysSpent Spent) {s : σ} {u : Bytes}
    (hs : Holds s u) :
    (∀ request, Returns (recvRequest s request) ↔ RequestReadable u) ∧
    (∀ response, Returns (recvResponse s response) ↔ ResponseReadable u) ∧
    (∀ is_resp header, Returns (recvFields is_resp s header) ↔ FieldsReadable is_resp u) ∧
    (∀ text, Returns (parseFromSetCookie text) ↔ CookieReadable text) := by
  refine ⟨?_, ?_, ?_, returns_parseFromSetCookie_iff⟩
  · exact fun request => returns_recvRequest_iff h hspent (.inl hs) request
  · exact fun response => returns_recvResponse_iff h hspent (.inl hs) response
  · exact fun is_resp header => returns_recvFields_iff h hspent is_resp (.inl hs) header

end Reading

def getRoot : Bytes := bytes "GET / HTTP/1.1\x0d\nHost: a\x0d\n\x0d\n"

theorem parsers_return_getRoot :
    (∀ request, Returns (recvRequest (⟨getRoot, 0⟩ : InputBufferWrapper) request) ↔
      RequestReadable getRoot) ∧
    (∀ response, Returns (recvResponse (⟨getRoot, 0⟩ : InputBufferWrapper) response) ↔
      ResponseReadable getRoot) ∧
    (∀ is_resp header, Returns (recvFields is_resp (⟨getRoot, 0⟩ : InputBufferWrapper) header) ↔
      FieldsReadable is_resp getRoot) ∧
    (∀ text, Returns (parseFromSetCookie text) ↔ CookieReadable text) :=
  parsers_return_iff InputBufferWrapper.reads InputBufferWrapper.staysSpent rfl

/-- A field with nothing behind its colon, a response without a status, an age that is no
number and a date that is too short. -/
theorem parsers_not_return :
    recvRequest (⟨bytes "GET / HTTP/1.1\x0d\na:\x0d\n\x0d\n", 0⟩ : InputBufferWrapper) {} =
        .error .terminate ∧
      recvResponse (⟨bytes "HTTP/1.1\x0d\n\x0d\n", 0⟩ : InputBufferWrapper) {} =
        .error .overread ∧
      parseFromSetCookie (bytes "a=b; Max-Age=x") = .error .terminate ∧
      parseFromSetCookie (bytes "a=b; Expires=x") = .error .terminate := by
  refine ⟨?_, ?_, ?_, ?_⟩
  · decide +kernel
  · decide +kernel
  · decide +kernel
  · decide +kernel

end Sese.Net.Http
