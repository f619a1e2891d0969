import Sese.Net.Http.RequestHeader
import Sese.Util.Scan
import Sese.Util.Splitting

/-!
# The ranges of a request

`Range::parse` compares positions of type `long` with `total - 1` of type `size_t`, which is the
largest of all when the file is empty. The pieces of an element have no sign, so that this is the
only comparison that can go wrong. Of the byte-range specifiers of RFC 7233 it reads those as they
are meant that have a first position, as long as no last position lies behind the end of the file.
Only what has the shape of a list of elements is taken at all.
-/
namespace Sese.Net.Http

open Foundation

theorem toInteger_lt (s : Bytes) : toInteger s < 2 ^ 63 := by
  unfold toInteger
  dsimp only
  split_ifs <;> omega

theorem toInteger_nonneg {s : Bytes} (h : (45 : UInt8) ∉ s) : 0 ≤ toInteger s := by
  have hblanks : (45 : UInt8) ∉ (cstr s).dropWhile fun b => b = 32 ∨ 9 ≤ b.toNat ∧ b.toNat ≤ 13 :=
    fun hmem => h ((List.takeWhile_prefix _).subset ((List.dropWhile_suffix _).subset hmem))
  have hhead : ((cstr s).dropWhile fun b => b = 32 ∨ 9 ≤ b.toNat ∧ b.toNat ≤ 13).head? ≠ some 45 :=
    fun hhead => hblanks (List.mem_of_head? hhead)
  unfold toInteger
  simp only [hhead, false_or, if_false]
  omega

theorem exists_position {s : Bytes} (h : (45 : UInt8) ∉ s) : ∃ n : ℕ, toInteger s = n ∧ n < 2 ^ 63 := by
  have hlt := toInteger_lt s
  obtain ⟨n, hn⟩ := Int.eq_ofNat_of_zero_le (toInteger_nonneg h)
  exact ⟨n, hn, by omega⟩

/-- What `total - 1` is as a `size_t`. -/
def Range.last (total : ℕ) : ℕ := (total + 2 ^ 64 - 1) % 2 ^ 64

variable {item first second str : Bytes} {total n m : ℕ} {r : Range}

theorem Range.last_of_pos (hpos : 1 ≤ total) (hlt : total < 2 ^ 64) : Range.last total = total - 1 := by
  unfold Range.last
  omega

theorem Range.parseOne_single (h : split item (bytes "-") = [first]) (hfirst : toInteger first = n)
    (hn : n < 2 ^ 63) : Range.parseOne total item =
      if n > Range.last total then none else some ⟨n, toUInt64 (total - n)⟩ := by
  unfold Range.parseOne
  simp only [h, hfirst, toUInt64_natCast (by omega : n < 2 ^ 64)]
  rfl

theorem Range.parseOne_pair (h : split item (bytes "-") = [first, second])
    (hfirst : toInteger first = n) (hn : n < 2 ^ 63) (hsecond : toInteger second = m)
    (hm : m < 2 ^ 63) : Range.parseOne total item =
      if n > Range.last total ∨ m > Range.last total then none
      else if n > m then none else some ⟨n, m - n + 1⟩ := by
  unfold Range.parseOne
  simp only [h, hfirst, hsecond, toUInt64_natCast (by omega : n < 2 ^ 64),
    toUInt64_natCast (by omega : m < 2 ^ 64), Range.last, gt_iff_lt, Nat.cast_lt]
  split_ifs with hlast horder
  · rfl
  · rfl
  · have hlen : (m : ℤ) - n + 1 = (m - n + 1 : ℕ) := by omega
    rw [hlen, toUInt64_natCast (by omega)]

/-- One position or two, the first of them not behind the second. -/
def Range.InOrder (item : Bytes) : Prop :=
  match split item (bytes "-") with
  | [_] => True
  | [first, second] => toInteger first ≤ toInteger second
  | _ => False

/-- `end - begin + 1` fits in a `long`. -/
def Range.NoOverflow (item : Bytes) : Prop :=
  ∀ first second, split item (bytes "-") = [first, second] →
    toInteger second - toInteger first + 1 < 2 ^ 63

theorem not_mem_dash {item piece : Bytes} (h : piece ∈ split item (bytes "-")) : (45 : UInt8) ∉ piece :=
  not_mem_split (c := 45) piece h

theorem Range.parseOne_cases (h : Range.parseOne total item = some r) :
    (∃ first n, split item (bytes "-") = [first] ∧ toInteger first = (n : ℕ) ∧ n < 2 ^ 63 ∧
      n ≤ Range.last total ∧ r = ⟨n, toUInt64 (total - n)⟩) ∨
    ∃ first second n m, split item (bytes "-") = [first, second] ∧ toInteger first = (n : ℕ) ∧
      toInteger second = (m : ℕ) ∧ m < 2 ^ 63 ∧ n ≤ m ∧ m ≤ Range.last total ∧
      r = ⟨n, m - n + 1⟩ := by
  cases hsplit : split item (bytes "-") with
  | nil =>
    unfold Range.parseOne at h
    rw [hsplit] at h
    cases h
  | cons first rest =>
    have hdash : ∀ p ∈ first :: rest, (45 : UInt8) ∉ p := by
      intro p hp
      exact not_mem_dash (hsplit ▸ hp)
    obtain ⟨n, hfirst, hn⟩ := exists_position (hdash first List.mem_cons_self)
    cases rest with
    | nil =>
      rw [Range.parseOne_single hsplit hfirst hn] at h
      split_ifs at h with hlast
      exact .inl ⟨first, n, rfl, hfirst, hn, by omega, (Option.some.inj h).symm⟩
    | cons second rest =>
      obtain ⟨m, hsecond, hm⟩ := exists_position (hdash second (by simp))
      cases rest with
      | nil =>
        rw [Range.parseOne_pair hsplit hfirst hn hsecond hm] at h
        split_ifs at h with hlast horder
        exact .inr ⟨first, second, n, m, rfl, hfirst, hsecond, hm, by omega, by omega,
          (Option.some.inj h).symm⟩
      | cons third rest =>
        unfold Range.parseOne at h
        rw [hsplit] at h
        cases h

theorem Range.parseOne_inOrder (h : Range.parseOne total item = some r) : Range.InOrder item := by
  unfold Range.InOrder
  rcases Range.parseOne_cases h with ⟨first, n, hsplit, -⟩ |
    ⟨first, second, n, m, hsplit, hfirst, hsecond, -, hle, -⟩
  · rw [hsplit]
    trivial
  · rw [hsplit]
    dsimp only
    omega

theorem Range.exists_parseOne (h : Range.InOrder item) (hlast : 2 ^ 63 - 1 ≤ Range.last total) :
    ∃ r, Range.parseOne total item = some r := by
  unfold Range.InOrder at h
  cases hsplit : split item (bytes "-") with
  | nil =>
    rw [hsplit] at h
    exact absurd h not_false
  | cons first rest =>
    have hdash : ∀ p ∈ first :: rest, (45 : UInt8) ∉ p := by
      intro p hp
      exact not_mem_dash (hsplit ▸ hp)
    obtain ⟨n, hfirst, hn⟩ := exists_position (hdash first List.mem_cons_self)
    rw [hsplit] at h
    cases rest with
    | nil =>
      rw [Range.parseOne_single hsplit hfirst hn, if_neg (by omega)]
      exact ⟨_, rfl⟩
    | cons second rest =>
      obtain ⟨m, hsecond, hm⟩ := exists_position (hdash second (by simp))
      cases rest with
      | nil =>
        dsimp only at h
        rw [Range.parseOne_pair hsplit hfirst hn hsecond hm, if_neg (by omega), if_neg (by omega)]
        exact ⟨_, rfl⟩
      | cons third rest => exact absurd h not_false

/-- In a file with octets a range that is taken is a part of it. -/
theorem Range.parseOne_fits (h : Range.parseOne total item = some r) (hpos : 1 ≤ total)
    (hlt : total < 2 ^ 64) : 1 ≤ r.len ∧ r.start + r.len ≤ total := by
  rcases Range.parseOne_cases h with ⟨first, n, -, -, hn, hlast, rfl⟩ |
    ⟨first, second, n, m, -, -, -, -, hle, hlast, rfl⟩
  · rw [Range.last_of_pos hpos hlt] at hlast
    have hlen : (total : ℤ) - n = (total - n : ℕ) := by omega
    dsimp only
    rw [hlen, toUInt64_natCast (by omega)]
    omega
  · rw [Range.last_of_pos hpos hlt] at hlast
    dsimp only
    omega

/-- What `parse` goes through. -/
def Range.elements (str : Bytes) : List Bytes :=
  match split str (bytes "=") with
  | [_, list] => split list (bytes ",")
  | _ => []

/-- The header of which no element is refused for its own sake. -/
structure Range.Acceptable (str : Bytes) : Prop where
  unit : ∃ list, split str (bytes "=") = [bytes "bytes", list]
  ne_nil : Range.elements str ≠ []
  length : (Range.elements str).length ≤ 16
  order : ∀ item ∈ Range.elements str, Range.InOrder item

theorem mapM_eq_some {α β : Type} {f : α → Option β} {l : List α} {l' : List β} :
    l.mapM f = some l' ↔ List.Forall₂ (fun a b => f a = some b) l l' := by
  induction l generalizing l' with
  | nil => simp [eq_comm]
  | cons a l ih =>
    rw [List.mapM_cons]
    constructor
    · intro h
      obtain ⟨b, hb, h⟩ := Option.bind_eq_some_iff.mp h
      obtain ⟨bs, hbs, h⟩ := Option.bind_eq_some_iff.mp h
      cases h
      exact .cons hb (ih.mp hbs)
    · intro h
      cases h with
      | cons hb hbs => simp [hb, ih.mpr hbs]

theorem forall₂_mem_left {α β : Type} {p : α → β → Prop} {l : List α} {l' : List β}
    (h : List.Forall₂ p l l') : ∀ a ∈ l, ∃ b ∈ l', p a b := by
  induction h with
  | nil => exact fun a ha => absurd ha List.not_mem_nil
  | @cons a b l l' hab _ ih =>
    intro a' ha'
    rcases List.mem_cons.mp ha' with rfl | ha'
    · exact ⟨b, List.mem_cons_self, hab⟩
    · obtain ⟨b', hb', hp⟩ := ih a' ha'
      exact ⟨b', List.mem_cons_of_mem b hb', hp⟩

theorem Range.parse_eq {list : Bytes} (h : split str (bytes "=") = [bytes "bytes", list]) :
    Range.parse str total = if (split list (bytes ",")).length > 16 then []
      else ((split list (bytes ",")).mapM (Range.parseOne total)).getD [] := by
  rw [Range.parse, h]
  simp

theorem Range.elements_eq {unit list : Bytes} (h : split str (bytes "=") = [unit, list]) :
    Range.elements str = split list (bytes ",") := by
  rw [Range.elements, h]

theorem Range.exists_split (h : Range.parse str total ≠ []) :
    ∃ list, split str (bytes "=") = [bytes "bytes", list] := by
  unfold Range.parse at h
  split at h
  · rename_i unit list hsplit
    dsimp only at h
    split_ifs at h with hrefused
    · exact absurd rfl h
    · exact ⟨list, by rw [hsplit, not_not.mp (not_or.mp hrefused).1]⟩
  · exact absurd rfl h

theorem Range.forall₂_parse (h : Range.parse str total ≠ []) :
    Range.Acceptable str ∧
      List.Forall₂ (fun item r => Range.parseOne total item = some r) (Range.elements str)
        (Range.parse str total) := by
  obtain ⟨list, hsplit⟩ := Range.exists_split h
  have helements := Range.elements_eq hsplit
  rw [Range.parse_eq hsplit] at h
  split_ifs at h with hlen
  · exact absurd rfl h
  · have hall : List.Forall₂ (fun item r => Range.parseOne total item = some r)
        (Range.elements str) (Range.parse str total) := by
      rw [Range.parse_eq hsplit, if_neg hlen, helements]
      cases hmap : (split list (bytes ",")).mapM (Range.parseOne total) with
      | none =>
        rw [hmap] at h
        exact absurd rfl h
      | some ranges => exact mapM_eq_some.mp hmap
    refine ⟨⟨⟨list, hsplit⟩, ?_, by rw [helements]; omega, ?_⟩, hall⟩
    · intro hnil
      rw [← helements, hnil] at h
      exact h rfl
    · intro item hitem
      obtain ⟨r, -, hr⟩ := forall₂_mem_left hall item hitem
      exact Range.parseOne_inOrder hr

/-- An acceptable header has ranges in a file that no position reaches. -/
theorem Range.Acceptable.parse_ne_nil (h : Range.Acceptable str)
    (hlast : 2 ^ 63 - 1 ≤ Range.last total) : Range.parse str total ≠ [] := by
  obtain ⟨list, hsplit⟩ := h.unit
  have helements := Range.elements_eq hsplit
  have hmap : ∀ items : List Bytes, (∀ item ∈ items, Range.InOrder item) →
      ∃ ranges, List.Forall₂ (fun item r => Range.parseOne total item = some r) items ranges := by
    intro items hitems
    induction items with
    | nil => exact ⟨[], .nil⟩
    | cons item items ih =>
      obtain ⟨r, hr⟩ := Range.exists_parseOne (hitems item List.mem_cons_self) hlast
      obtain ⟨ranges, hranges⟩ := ih fun i hi => hitems i (List.mem_cons_of_mem _ hi)
      exact ⟨r :: ranges, .cons hr hranges⟩
  obtain ⟨ranges, hranges⟩ := hmap _ h.order
  have hlen := h.length
  have hne := h.ne_nil
  rw [helements] at hranges hlen hne
  rw [Range.parse_eq hsplit, if_neg (by omega), mapM_eq_some.mpr hranges]
  rintro rfl
  exact hne (List.forall₂_nil_right_iff.mp hranges)

/-- The ranges are parts of the file, and none of the numbers has wrapped around. -/
structure Range.Fit (str : Bytes) (total : ℕ) : Prop where
  fits : ∀ r ∈ Range.parse str total, 1 ≤ r.len ∧ r.start + r.len ≤ total
  noWrap : Range.parse str total ≠ [] → ∀ item ∈ Range.elements str, Range.NoOverflow item

/-- When the ranges of a header fit. -/
theorem Range.fit_iff (hlt : total < 2 ^ 64) :
    Range.Fit str total ↔ (Range.Acceptable str → total ≠ 0 ∧
      (2 ^ 63 ≤ total → ∀ item ∈ Range.elements str, Range.NoOverflow item)) := by
  constructor
  · intro h hacc
    constructor
    · rintro rfl
      have hne : Range.parse str 0 ≠ [] := hacc.parse_ne_nil (by decide)
      obtain ⟨r, hr⟩ := List.exists_mem_of_ne_nil _ hne
      have hfits := h.fits r hr
      omega
    · intro hlarge
      apply h.noWrap
      apply hacc.parse_ne_nil
      rw [Range.last_of_pos (by omega) hlt]
      omega
  · intro h
    constructor
    · intro r hr
      obtain ⟨hacc, hall⟩ := Range.forall₂_parse (List.ne_nil_of_mem hr)
      obtain ⟨item, -, hitem⟩ := forall₂_mem_left hall.flip r hr
      exact Range.parseOne_fits hitem (Nat.one_le_iff_ne_zero.mpr (h hacc).1) hlt
    · intro hne item hitem
      obtain ⟨hacc, hall⟩ := Range.forall₂_parse hne
      by_cases hlarge : 2 ^ 63 ≤ total
      · exact (h hacc).2 hlarge item hitem
      · obtain ⟨r, -, hr⟩ := forall₂_mem_left hall item hitem
        intro first second hsplit
        have hpos := Nat.one_le_iff_ne_zero.mpr (h hacc).1
        rcases Range.parseOne_cases hr with ⟨first', n, hsplit', -⟩ |
          ⟨first', second', n, m, hsplit', hfirst, hsecond, -, -, hlast, -⟩
        · rw [hsplit] at hsplit'
          cases hsplit'
        · rw [hsplit] at hsplit'
          cases hsplit'
          rw [Range.last_of_pos hpos hlt] at hlast
          omega

theorem Range.fit_last_octet : Range.Fit (bytes "bytes=9-9") 10 :=
  (Range.fit_iff (by decide)).mpr fun _ => ⟨by decide, fun hlarge => absurd hlarge (by decide)⟩

/-- From an empty file five octets are to be left out, and all but five of `2 ^ 64` are taken. -/
theorem Range.not_fit_empty : ¬ ∀ (str : Bytes) (total : ℕ), total < 2 ^ 64 → Range.Fit str total := by
  intro h
  have hparse : Range.parse (bytes "bytes=5-") 0 = [⟨5, 2 ^ 64 - 5⟩] := by decide +kernel
  have hfits := (h (bytes "bytes=5-") 0 (by decide)).fits ⟨5, 2 ^ 64 - 5⟩ (by simp [hparse])
  exact absurd hfits.2 (by decide)

/-- The digits of a number that fits in a `long`. -/
structure PositionText (s : Bytes) : Prop where
  ne_nil : s ≠ []
  digits : ∀ b ∈ s, isdigit b
  lt : digitsValue s < 2 ^ 63

/-- An element of a list of ranges, with its numbers as they are written: `a-b`, `a-` or `-n`. -/
inductive ByteRangeSpec
  | closed (first last : Bytes)
  | opened (first : Bytes)
  | suffix (length : Bytes)

namespace ByteRangeSpec

def text : ByteRangeSpec → Bytes
  | closed first last => first ++ 45 :: last
  | opened first => first ++ [45]
  | suffix length => 45 :: length

def Valid : ByteRangeSpec → Prop
  | closed first last =>
    PositionText first ∧ PositionText last ∧ digitsValue first ≤ digitsValue last
  | opened first => PositionText first
  | suffix length => PositionText length

/-- The range that is meant in a file of `total` octets, if there is one. -/
def assigned (total : ℕ) : ByteRangeSpec → Option Range
  | closed first last =>
    if digitsValue first < total then
      some ⟨digitsValue first, min (digitsValue last + 1) total - digitsValue first⟩
    else none
  | opened first =>
    if digitsValue first < total then some ⟨digitsValue first, total - digitsValue first⟩ else none
  | suffix length =>
    if digitsValue length = 0 then none
    else some ⟨total - min (digitsValue length) total, min (digitsValue length) total⟩

def HasFirst : ByteRangeSpec → Prop
  | closed _ _ | opened _ => True
  | suffix _ => False

def Within (total : ℕ) : ByteRangeSpec → Prop
  | closed _ last => digitsValue last < total
  | opened _ | suffix _ => True

end ByteRangeSpec

structure RangeItem where
  before : Bytes
  spec : ByteRangeSpec
  behind : Bytes

namespace RangeItem

def text (item : RangeItem) : Bytes := item.before ++ (item.spec.text ++ item.behind)

structure Valid (item : RangeItem) : Prop where
  before : ∀ b ∈ item.before, b = 32 ∨ b = 9
  spec : item.spec.Valid
  behind : ∀ b ∈ item.behind, b = 32 ∨ b = 9

def Tight (item : RangeItem) : Prop :=
  match item.spec with
  | .closed _ _ => True
  | _ => item.behind = []

end RangeItem

/-- A `bytes-ranges-specifier`. -/
def rangesSpecifier (items : List RangeItem) : Bytes :=
  bytes "bytes=" ++ [44].intercalate (items.map RangeItem.text)

variable {item : RangeItem} {total : ℕ}

theorem isspace_of_blank {b : UInt8} (h : b = 32 ∨ b = 9) : isspace b := by
  rcases h with rfl | rfl <;> rfl

theorem not_mem_of_blanks {c : UInt8} (hc : ¬ isspace c) {s : Bytes} (h : ∀ b ∈ s, b = 32 ∨ b = 9) :
    c ∉ s := fun hmem => hc (isspace_of_blank (h c hmem))

theorem PositionText.not_mem {s : Bytes} (h : PositionText s) {c : UInt8} (hc : ¬ isdigit c) :
    c ∉ s := fun hmem => hc (h.digits c hmem)

theorem RangeItem.Valid.not_mem (h : item.Valid) {c : UInt8} (hdigit : ¬ isdigit c)
    (hspace : ¬ isspace c) (hdash : c ≠ 45) : c ∉ item.text := by
  have hspec : c ∉ item.spec.text := by
    have hvalid := h.spec
    cases hs : item.spec with
    | closed first last =>
      rw [hs] at hvalid
      simp [ByteRangeSpec.text, hvalid.1.not_mem hdigit, hvalid.2.1.not_mem hdigit, hdash]
    | opened first =>
      rw [hs] at hvalid
      simp [ByteRangeSpec.text, PositionText.not_mem hvalid hdigit, hdash]
    | suffix length =>
      rw [hs] at hvalid
      simp [ByteRangeSpec.text, PositionText.not_mem hvalid hdigit, hdash]
  simp [RangeItem.text, hspec, not_mem_of_blanks hspace h.before, not_mem_of_blanks hspace h.behind]

theorem RangeItem.text_ne_nil (item : RangeItem) : item.text ≠ [] := by
  cases hs : item.spec <;> simp [RangeItem.text, ByteRangeSpec.text, hs]

theorem toInteger_before {blanks first : Bytes} (hblanks : ∀ b ∈ blanks, b = 32 ∨ b = 9)
    (hfirst : PositionText first) : toInteger (blanks ++ first) = digitsValue first := by
  have hvalue : toInteger (blanks ++ (first ++ [])) = _ :=
    toInteger_digits (fun b hb => isspace_of_blank (hblanks b hb)) hfirst.ne_nil hfirst.digits
      (by simp) List.not_mem_nil
  have hlt := hfirst.lt
  rw [List.append_nil] at hvalue
  rw [hvalue]
  omega

theorem toInteger_behind {blanks last : Bytes} (hblanks : ∀ b ∈ blanks, b = 32 ∨ b = 9)
    (hlast : PositionText last) : toInteger (last ++ blanks) = digitsValue last := by
  have hhead : ∀ b ∈ blanks.head?, ¬ isdigit b := by
    intro b hb
    rcases hblanks b (List.mem_of_head? hb) with rfl | rfl <;> decide
  have hvalue : toInteger ([] ++ (last ++ blanks)) = _ :=
    toInteger_digits (List.forall_mem_nil _) hlast.ne_nil hlast.digits hhead
      (not_mem_of_blanks (by decide) hblanks)
  have hlt := hlast.lt
  rw [List.nil_append] at hvalue
  rw [hvalue]
  omega

theorem split_dash {front rest : Bytes} (hfront : (45 : UInt8) ∉ front) (hrest : (45 : UInt8) ∉ rest)
    (hnul : (0 : UInt8) ∉ front ++ 45 :: rest) :
    split (front ++ 45 :: rest) (bytes "-") = if rest = [] then [front] else [front, rest] := by
  have hsplit : pieces (front ++ ([45] ++ rest)) [45] = front :: pieces rest [45] :=
    pieces_append hfront rest
  rw [split_eq_pieces hnul]
  split_ifs with hnil
  · rw [hnil] at hsplit ⊢
    exact hsplit
  · rw [pieces_single hrest hnil] at hsplit
    exact hsplit

section

variable {before first last behind : Bytes} (hbefore : ∀ b ∈ before, b = 32 ∨ b = 9)
  (hfirst : PositionText first) (hpos : 1 ≤ total) (hlt : total < 2 ^ 64)

include hbefore hfirst in
theorem dash_not_mem_before : (45 : UInt8) ∉ before ++ first := by
  rw [List.mem_append, not_or]
  exact ⟨not_mem_of_blanks (by decide) hbefore, hfirst.not_mem (by decide)⟩

include hbefore hfirst hpos hlt

theorem parseOne_closed (hbehind : ∀ b ∈ behind, b = 32 ∨ b = 9) (hlast : PositionText last)
    (hle : digitsValue first ≤ digitsValue last) :
    Range.parseOne total (RangeItem.text ⟨before, .closed first last, behind⟩) =
      if digitsValue last < total then
        some ⟨digitsValue first, digitsValue last - digitsValue first + 1⟩
      else none := by
  have htext : RangeItem.text ⟨before, .closed first last, behind⟩ =
      (before ++ first) ++ 45 :: (last ++ behind) := by
    simp [RangeItem.text, ByteRangeSpec.text]
  have hvalid : RangeItem.Valid ⟨before, .closed first last, behind⟩ :=
    ⟨hbefore, ⟨hfirst, hlast, hle⟩, hbehind⟩
  have hnul := hvalid.not_mem (c := 0) (by decide) (by decide) (by decide)
  have hdash : (45 : UInt8) ∉ last ++ behind := by
    rw [List.mem_append, not_or]
    exact ⟨hlast.not_mem (by decide), not_mem_of_blanks (by decide) hbehind⟩
  rw [htext] at hnul
  have hsplit := split_dash (dash_not_mem_before hbefore hfirst) hdash hnul
  rw [if_neg (by simp [hlast.ne_nil])] at hsplit
  rw [htext, Range.parseOne_pair hsplit (toInteger_before hbefore hfirst) hfirst.lt
    (toInteger_behind hbehind hlast) hlast.lt, Range.last_of_pos hpos hlt]
  by_cases hwithin : digitsValue last < total
  · rw [if_neg (by omega), if_neg (by omega), if_pos hwithin]
  · rw [if_pos (by omega), if_neg hwithin]

theorem parseOne_opened : Range.parseOne total (RangeItem.text ⟨before, .opened first, []⟩) =
    if digitsValue first < total then some ⟨digitsValue first, total - digitsValue first⟩
    else none := by
  have htext : RangeItem.text ⟨before, .opened first, []⟩ = (before ++ first) ++ 45 :: [] := by
    simp [RangeItem.text, ByteRangeSpec.text]
  have hvalid : RangeItem.Valid ⟨before, .opened first, []⟩ := ⟨hbefore, hfirst, List.forall_mem_nil _⟩
  have hnul := hvalid.not_mem (c := 0) (by decide) (by decide) (by decide)
  rw [htext] at hnul
  have hsplit := split_dash (dash_not_mem_before hbefore hfirst) List.not_mem_nil hnul
  rw [if_pos rfl] at hsplit
  rw [htext, Range.parseOne_single hsplit (toInteger_before hbefore hfirst) hfirst.lt,
    Range.last_of_pos hpos hlt]
  by_cases hin : digitsValue first < total
  · have hlen : (total : ℤ) - digitsValue first = (total - digitsValue first : ℕ) := by omega
    rw [if_neg (by omega), if_pos hin, hlen, toUInt64_natCast (by omega)]
  · rw [if_pos (by omega), if_neg hin]

end

/-- An element with a first position in the file is taken if its last one is in the file too. -/
theorem RangeItem.Valid.parseOne_iff (h : item.Valid) (hfirst : item.spec.HasFirst)
    (htight : item.Tight) (hpos : 1 ≤ total) (hlt : total < 2 ^ 64) {r : Range}
    (hr : item.spec.assigned total = some r) :
    (item.spec.Within total → Range.parseOne total item.text = some r) ∧
      (¬ item.spec.Within total → Range.parseOne total item.text = none) := by
  obtain ⟨before, spec, behind⟩ := item
  obtain ⟨hbefore, hspec, hbehind⟩ := h
  cases spec with
  | closed first last =>
    obtain ⟨hf, hl, hle⟩ := hspec
    rw [parseOne_closed hbefore hf hpos hlt hbehind hl hle, ← hr]
    refine ⟨fun hwithin => ?_, fun hwithin => if_neg hwithin⟩
    have hlast : digitsValue last < total := hwithin
    have hlen : min (digitsValue last + 1) total - digitsValue first =
        digitsValue last - digitsValue first + 1 := by omega
    simp only [ByteRangeSpec.assigned, hlen]
    rw [if_pos hlast, if_pos (by omega)]
  | opened first =>
    obtain rfl : behind = [] := htight
    rw [parseOne_opened hbefore hspec hpos hlt, ← hr]
    exact ⟨fun _ => rfl, fun hwithin => absurd trivial hwithin⟩
  | suffix length => exact absurd hfirst not_false

variable {items : List RangeItem}

theorem split_elements {texts : List Bytes} (hne : texts ≠ [])
    (h : ∀ text ∈ texts, text ≠ [] ∧ (0 : UInt8) ∉ text ∧ (44 : UInt8) ∉ text ∧ (61 : UInt8) ∉ text) :
    split (bytes "bytes=" ++ [44].intercalate texts) (bytes "=") =
        [bytes "bytes", [44].intercalate texts] ∧
      split ([44].intercalate texts) (bytes ",") = texts := by
  have hmem : ∀ c : UInt8, c ≠ 44 → (∀ text ∈ texts, c ∉ text) → c ∉ [44].intercalate texts := by
    intro c hcomma htexts hc
    rcases mem_intercalate hc with hc | ⟨text, htext, hc⟩
    · exact hcomma (List.mem_singleton.mp hc)
    · exact htexts text htext hc
  have hnul := hmem 0 (by decide) fun text htext => (h text htext).2.1
  have hequals := hmem 61 (by decide) fun text htext => (h text htext).2.2.2
  have hlast : texts.getLast? ≠ some [] := fun hnil => (h [] (List.mem_of_getLast? hnil)).1 rfl
  have hlist : pieces ([44].intercalate texts) [44] = texts :=
    pieces_intercalate (fun text htext => (h text htext).2.2.1) hlast
  refine ⟨?_, by rw [split_eq_pieces hnul]; exact hlist⟩
  have hnul' : (0 : UInt8) ∉ bytes "bytes=" ++ [44].intercalate texts := by
    rw [List.mem_append, not_or]
    exact ⟨by decide, hnul⟩
  have hlistne : [44].intercalate texts ≠ [] := by
    intro hnil
    rw [hnil] at hlist
    exact hne hlist.symm
  have hunit : pieces (bytes "bytes" ++ ([61] ++ [44].intercalate texts)) [61] =
      bytes "bytes" :: pieces ([44].intercalate texts) [61] := pieces_append (by decide) _
  rw [pieces_single hequals hlistne] at hunit
  rw [split_eq_pieces hnul']
  exact hunit

theorem split_rangesSpecifier (hvalid : ∀ item ∈ items, item.Valid) (hne : items ≠ []) :
    split (rangesSpecifier items) (bytes "=") =
        [bytes "bytes", [44].intercalate (items.map RangeItem.text)] ∧
      split ([44].intercalate (items.map RangeItem.text)) (bytes ",") =
        items.map RangeItem.text := by
  apply split_elements (fun hnil => hne (List.map_eq_nil_iff.mp hnil))
  intro text htext
  obtain ⟨item, hitem, rfl⟩ := List.mem_map.mp htext
  have hnot := fun c => (hvalid item hitem).not_mem (c := c)
  exact ⟨item.text_ne_nil, hnot 0 (by decide) (by decide) (by decide),
    hnot 44 (by decide) (by decide) (by decide), hnot 61 (by decide) (by decide) (by decide)⟩

theorem parse_rangesSpecifier (hvalid : ∀ item ∈ items, item.Valid) (hne : items ≠ [])
    (hmany : items.length ≤ 16) :
    Range.parse (rangesSpecifier items) total =
      ((items.map RangeItem.text).mapM (Range.parseOne total)).getD [] := by
  obtain ⟨hsplit, hlist⟩ := split_rangesSpecifier hvalid hne
  rw [Range.parse_eq hsplit, hlist, List.length_map, if_neg (by omega)]

/-- What `parse` gives for a list of elements with a first position in the file. -/
theorem parse_first_positions (hvalid : ∀ item ∈ items, item.Valid) (hne : items ≠ [])
    (hmany : items.length ≤ 16) (hfirst : ∀ item ∈ items, item.spec.HasFirst ∧ item.Tight)
    (hpos : 1 ≤ total) (hlt : total < 2 ^ 64)
    (hsat : ∀ item ∈ items, item.spec.assigned total ≠ none) :
    ((∀ item ∈ items, item.spec.Within total) → Range.parse (rangesSpecifier items) total =
        items.filterMap fun item => item.spec.assigned total) ∧
      ((∃ item ∈ items, ¬ item.spec.Within total) →
        Range.parse (rangesSpecifier items) total = []) := by
  rw [parse_rangesSpecifier hvalid hne hmany]
  have hone : ∀ item ∈ items, ∃ r, item.spec.assigned total = some r ∧
      (item.spec.Within total → Range.parseOne total item.text = some r) ∧
      (¬ item.spec.Within total → Range.parseOne total item.text = none) := by
    intro item hitem
    obtain ⟨r, hr⟩ := Option.ne_none_iff_exists'.mp (hsat item hitem)
    obtain ⟨hf, htight⟩ := hfirst item hitem
    exact ⟨r, hr, (hvalid item hitem).parseOne_iff hf htight hpos hlt hr⟩
  clear hvalid hne hmany hfirst hsat
  constructor
  · intro hwithin
    have hall : (items.map RangeItem.text).mapM (Range.parseOne total) =
        some (items.filterMap fun item => item.spec.assigned total) := by
      induction items with
      | nil => rfl
      | cons item items ih =>
        obtain ⟨r, hr, htaken, -⟩ := hone item List.mem_cons_self
        rw [List.map_cons, List.mapM_cons, htaken (hwithin item List.mem_cons_self),
          ih (fun i hi => hone i (List.mem_cons_of_mem _ hi))
            (fun i hi => hwithin i (List.mem_cons_of_mem _ hi))]
        simp [hr]
    rw [hall]
    rfl
  · rintro ⟨item, hitem, hwithin⟩
    cases hmap : (items.map RangeItem.text).mapM (Range.parseOne total) with
    | none => rfl
    | some ranges =>
      obtain ⟨r, -, hr⟩ := forall₂_mem_left (mapM_eq_some.mp hmap) item.text
        (List.mem_map_of_mem hitem)
      obtain ⟨-, -, -, hnone⟩ := hone item hitem
      rw [hnone hwithin] at hr
      cases hr

def DashShape (item : Bytes) : Prop :=
  ∃ a b, (45 : UInt8) ∉ a ∧ (45 : UInt8) ∉ b ∧
    (item = a ∨ item = a ++ [45] ∨ item = a ++ 45 :: b ∨ item = a ++ 45 :: (b ++ [45]))

/-- The shape of a header with ranges: the unit, and one to sixteen elements with commas between
them. A comma and a `=` may stand at its end. -/
def RangesShape (str : Bytes) : Prop :=
  ∃ items tail, str = bytes "bytes=" ++ ([44].intercalate items ++ tail) ∧
    (tail = [] ∨ tail = [44] ∨ tail = [61] ∨ tail = [44, 61]) ∧ items ≠ [] ∧ items.length ≤ 16 ∧
    ∀ item ∈ items, item ≠ [] ∧ (61 : UInt8) ∉ item ∧ (44 : UInt8) ∉ item ∧ DashShape item

theorem dashShape_of_inOrder {item : Bytes} (hnul : (0 : UInt8) ∉ item) (h : Range.InOrder item) :
    item ≠ [] ∧ DashShape item := by
  unfold Range.InOrder at h
  obtain ⟨rest, hrest, hitem⟩ := pieces_join 45 item
  have hsplit : split item (bytes "-") = pieces item [45] := split_eq_pieces hnul _
  have hdash : ∀ p ∈ pieces item [45], (45 : UInt8) ∉ p := by
    intro p hp
    exact not_mem_dash (hsplit.symm ▸ hp)
  rw [hsplit] at h
  cases hpieces : pieces item [45] with
  | nil =>
    rw [hpieces] at h
    exact absurd h not_false
  | cons a ps =>
    rw [hpieces] at h hitem hdash
    have hne : item ≠ [] := by
      rintro rfl
      cases hpieces
    refine ⟨hne, ?_⟩
    cases ps with
    | nil =>
      rw [List.intercalate_singleton] at hitem
      refine ⟨a, [], hdash a List.mem_cons_self, List.not_mem_nil, ?_⟩
      rcases hrest with rfl | rfl
      · exact .inl (by rw [hitem, List.append_nil])
      · exact .inr (.inl hitem)
    | cons b ps =>
      cases ps with
      | nil =>
        refine ⟨a, b, hdash a List.mem_cons_self, hdash b (by simp), .inr (.inr ?_)⟩
        rw [List.intercalate_cons_cons, List.intercalate_singleton] at hitem
        rcases hrest with rfl | rfl
        · exact .inl (by rw [hitem]; simp)
        · exact .inr (by rw [hitem]; simp)
      | cons c ps => exact absurd h not_false

/-- Only what has the shape of a list is taken. -/
theorem rangesShape_of_parse {str : Bytes} (hnul : (0 : UInt8) ∉ str)
    (h : Range.parse str total ≠ []) : RangesShape str := by
  obtain ⟨hacc, -⟩ := Range.forall₂_parse h
  obtain ⟨list, hsplit⟩ := hacc.unit
  have helements := Range.elements_eq hsplit
  have hne := hacc.ne_nil
  have hlen := hacc.length
  have horder := hacc.order
  rw [helements] at hne hlen horder
  have hpieces : pieces str [61] = [bytes "bytes", list] := by
    rw [← split_eq_pieces hnul]
    exact hsplit
  obtain ⟨tail, htail, hstr⟩ := pieces_join 61 str
  rw [hpieces, List.intercalate_cons_cons, List.intercalate_singleton] at hstr
  have hnul' : (0 : UInt8) ∉ list := by
    rw [hstr] at hnul
    simp only [List.mem_append, not_or] at hnul
    exact hnul.1.2
  have hlist : split list (bytes ",") = pieces list [44] := split_eq_pieces hnul' _
  obtain ⟨comma, hcomma, hjoin⟩ := pieces_join 44 list
  have hequals : (61 : UInt8) ∉ list := not_mem_split (c := 61) list (by
    have hmem : list ∈ split str (bytes "=") := by simp [hsplit]
    exact hmem)
  have hcommas : ∀ item ∈ pieces list [44], (44 : UInt8) ∉ item := by
    intro item hitem
    rw [← hlist] at hitem
    exact not_mem_split (c := 44) item hitem
  rw [hlist] at hne hlen horder
  refine ⟨pieces list [44], comma ++ tail, ?_, ?_, hne, hlen, ?_⟩
  · rw [hstr, ← List.append_assoc ([44].intercalate _), ← hjoin]
    simp only [List.append_assoc]
    rfl
  · rcases hcomma with rfl | rfl <;> rcases htail with rfl | rfl <;> simp
  · intro item hitem
    have hsub : item ⊆ list := by
      intro b hb
      rw [hjoin]
      exact List.mem_append_left _ (mem_intercalate_of_mem hitem hb)
    obtain ⟨hitemne, hshape⟩ := dashShape_of_inOrder (fun hz => hnul' (hsub hz)) (horder item hitem)
    exact ⟨hitemne, fun hb => hequals (hsub hb), hcommas item hitem, hshape⟩

theorem not_inOrder {before first last behind : Bytes} (hbefore : ∀ b ∈ before, b = 32 ∨ b = 9)
    (hfirst : PositionText first) (hlast : PositionText last) (hbehind : ∀ b ∈ behind, b = 32 ∨ b = 9)
    (hlt : digitsValue last < digitsValue first) :
    ¬ Range.InOrder (RangeItem.text ⟨before, .closed first last, behind⟩) := by
  have htext : RangeItem.text ⟨before, .closed first last, behind⟩ =
      (before ++ first) ++ 45 :: (last ++ behind) := by
    simp [RangeItem.text, ByteRangeSpec.text]
  have hnot : ∀ c : UInt8, ¬ isdigit c → ¬ isspace c → c ∉ before ++ first ∧ c ∉ last ++ behind := by
    intro c hdigit hspace
    simp only [List.mem_append, not_or]
    exact ⟨⟨not_mem_of_blanks hspace hbefore, hfirst.not_mem hdigit⟩, hlast.not_mem hdigit,
      not_mem_of_blanks hspace hbehind⟩
  have hnul : (0 : UInt8) ∉ (before ++ first) ++ 45 :: (last ++ behind) := by
    obtain ⟨hfront, hrest⟩ := hnot 0 (by decide) (by decide)
    rw [List.mem_append, List.mem_cons, not_or, not_or]
    exact ⟨hfront, by decide, hrest⟩
  obtain ⟨hfront, hrest⟩ := hnot 45 (by decide) (by decide)
  have hsplit := split_dash hfront hrest hnul
  rw [if_neg (by simp [hlast.ne_nil])] at hsplit
  rw [Range.InOrder, htext, hsplit]
  dsimp only
  rw [toInteger_before hbefore hfirst, toInteger_behind hbehind hlast]
  omega

/-- An element whose last position is before its first one makes the whole list invalid. -/
theorem parse_disordered {texts : List Bytes} {item : Bytes} (hitem : item ∈ texts)
    (horder : ¬ Range.InOrder item)
    (h : ∀ text ∈ texts, text ≠ [] ∧ (0 : UInt8) ∉ text ∧ (44 : UInt8) ∉ text ∧ (61 : UInt8) ∉ text) :
    Range.parse (bytes "bytes=" ++ [44].intercalate texts) total = [] := by
  by_contra hparse
  obtain ⟨hacc, -⟩ := Range.forall₂_parse hparse
  obtain ⟨hsplit, hlist⟩ := split_elements (List.ne_nil_of_mem hitem) h
  apply horder
  apply hacc.order
  rw [Range.elements_eq hsplit, hlist]
  exact hitem

/-- How the elements of RFC 7233 that begin with a position are read, and what is not taken: a list
with an element `a-b` that has `a` above `b`, and what has not the shape of a list. -/
theorem parse_specifiers :
    (∀ (items : List RangeItem) (total : ℕ), (∀ item ∈ items, item.Valid) → items ≠ [] →
      items.length ≤ 16 → (∀ item ∈ items, item.spec.HasFirst ∧ item.Tight) → 1 ≤ total →
      total < 2 ^ 64 → (∀ item ∈ items, item.spec.assigned total ≠ none) →
      ((∀ item ∈ items, item.spec.Within total) → Range.parse (rangesSpecifier items) total =
          items.filterMap fun item => item.spec.assigned total) ∧
        ((∃ item ∈ items, ¬ item.spec.Within total) →
          Range.parse (rangesSpecifier items) total = [])) ∧
    (∀ (texts : List Bytes) (before first last behind : Bytes) (total : ℕ),
      (∀ text ∈ texts, text ≠ [] ∧ (0 : UInt8) ∉ text ∧ (44 : UInt8) ∉ text ∧ (61 : UInt8) ∉ text) →
      (∀ b ∈ before, b = 32 ∨ b = 9) → (∀ b ∈ behind, b = 32 ∨ b = 9) → PositionText first →
      PositionText last → digitsValue last < digitsValue first →
      RangeItem.text ⟨before, .closed first last, behind⟩ ∈ texts →
      Range.parse (bytes "bytes=" ++ [44].intercalate texts) total = []) ∧
    ∀ (str : Bytes) (total : ℕ), (0 : UInt8) ∉ str → ¬ RangesShape str → Range.parse str total = [] := by
  refine ⟨?_, ?_, ?_⟩
  · intro items total hvalid hne hmany hfirst hpos hlt hsat
    exact parse_first_positions hvalid hne hmany hfirst hpos hlt hsat
  · intro texts before first last behind total htexts hbefore hbehind hfirst hlast hlt hmem
    exact parse_disordered hmem (not_inOrder hbefore hfirst hlast hbehind hlt) htexts
  · intro str total hnul hshape
    by_contra h
    exact hshape (rangesShape_of_parse hnul h)

/-- The element `1-3000`. -/
def upTo3000 : RangeItem := ⟨[], .closed [49] [51, 48, 48, 48], []⟩

theorem valid_upTo3000 : upTo3000.Valid :=
  ⟨List.forall_mem_nil _, ⟨⟨by decide, by decide, by decide⟩, ⟨by decide, by decide, by decide⟩,
    by decide⟩, List.forall_mem_nil _⟩

theorem parse_upTo3000 :
    Range.parse (rangesSpecifier [upTo3000]) 20000 = [⟨1, 3000⟩] ∧
      Range.parse (bytes "bytes=99-1") 100 = [] ∧ Range.parse (bytes "block=1-3000") 20000 = [] := by
  have hitem : ∀ P : RangeItem → Prop, P upTo3000 → ∀ item ∈ [upTo3000], P item := by
    intro P h item hitem
    rwa [List.mem_singleton.mp hitem]
  obtain ⟨htaken, hdisordered, hrefused⟩ := parse_specifiers
  refine ⟨?_, ?_, ?_⟩
  · obtain ⟨hwithin, -⟩ := htaken [upTo3000] 20000 (hitem _ valid_upTo3000) (by simp) (by simp)
      (hitem _ ⟨trivial, trivial⟩) (by decide) (by decide) (hitem _ (by decide))
    have hlast : upTo3000.spec.Within 20000 :=
      (by decide : digitsValue [51, 48, 48, 48] < 20000)
    exact hwithin (hitem _ hlast)
  · have htext : ∀ text ∈ [bytes "99-1"], text ≠ [] ∧ (0 : UInt8) ∉ text ∧ (44 : UInt8) ∉ text ∧
        (61 : UInt8) ∉ text := by
      intro text htext
      rw [List.mem_singleton.mp htext]
      decide
    exact hdisordered [bytes "99-1"] [] [57, 57] [49] [] 100 htext (List.forall_mem_nil _)
      (List.forall_mem_nil _) ⟨by decide, by decide, by decide⟩ ⟨by decide, by decide, by decide⟩
      (by decide) (List.mem_singleton.mpr rfl)
  · refine hrefused _ _ (by decide) ?_
    rintro ⟨items, tail, hstr, -⟩
    exact absurd (List.cons.inj hstr).2 (by simp)

/-- A last position behind the end is not moved there: the whole list is refused. -/
theorem upTo3000_not_clipped :
    ¬ ∀ (items : List RangeItem) (total : ℕ), (∀ item ∈ items, item.Valid) → items ≠ [] →
      items.length ≤ 16 → 1 ≤ total → total < 2 ^ 64 →
      (∀ item ∈ items, item.spec.assigned total ≠ none) →
      Range.parse (rangesSpecifier items) total =
        items.filterMap fun item => item.spec.assigned total := by
  intro h
  have hitem : ∀ P : RangeItem → Prop, P upTo3000 → ∀ item ∈ [upTo3000], P item := by
    intro P h item hitem
    rwa [List.mem_singleton.mp hitem]
  have hparse := h [upTo3000] 100 (hitem _ valid_upTo3000) (by simp) (by simp) (by decide) (by decide)
    (hitem _ (by decide))
  revert hparse
  decide +kernel

end Sese.Net.Http
