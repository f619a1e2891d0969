import Sese.Net.Http.HPackUtil
import Sese.Net.Http.HttpOutput
import Sese.Text.GreenwichDates

/-!
# The two texts of a cookie

`HPackUtil::buildCookieString` and `HttpUtil::sendSetCookie` write one cookie. The first has no
labels before the path and the domain, and it takes the seconds of `expires` for microseconds.
-/
namespace Sese.Net.Http

open Foundation
open DateTimeFormatter

def greenwich (timestamp : ℕ) : Bytes := format (.new timestamp) TIME_GREENWICH_MEAN_PATTERN

variable {cookie : Cookie}

theorem sendSetCookie_add_empty (cookie : Cookie) :
    sendSetCookie (CookieMap.add .empty cookie) =
      bytes "Set-Cookie: " ++ (cookiePair (cookie.name, cookie) ++ cookieAttributes cookie) ++
        [13, 10] := by
  have hentries : (CookieMap.add .empty cookie).entries = [(cookie.name, cookie)] := rfl
  rw [sendSetCookie, hentries, List.flatMap_singleton, List.append_assoc (bytes "Set-Cookie: ")]

def labelled (label text : Bytes) : Bytes := if text = [] then [] else label ++ text

@[simp] theorem labelled_nil (label : Bytes) : labelled label [] = [] := if_pos rfl

theorem length_labelled_le {label label' : Bytes} (h : label.length ≤ label'.length)
    (text : Bytes) : (labelled label text).length ≤ (labelled label' text).length := by
  rw [labelled, labelled]
  split_ifs
  · exact le_rfl
  · rw [List.length_append, List.length_append]
    omega

theorem eq_nil_of_length_labelled {label label' text : Bytes} (h : label.length < label'.length)
    (hlen : (labelled label' text).length ≤ (labelled label text).length) : text = [] := by
  by_contra hne
  rw [labelled, labelled, if_neg hne, if_neg hne, List.length_append,
    List.length_append] at hlen
  omega

def ageAttribute (cookie : Cookie) (date : Bytes) : Bytes :=
  if cookie.maxAge > 0 then bytes "; Max-Age=" ++ toDecimal cookie.maxAge
  else if cookie.expires > 0 then bytes "; Expires=" ++ date
  else []

theorem length_ageAttribute {date date' : Bytes} (h : date.length = date'.length) :
    (ageAttribute cookie date).length = (ageAttribute cookie date').length := by
  rw [ageAttribute, ageAttribute]
  split_ifs
  · rfl
  · rw [List.length_append, List.length_append, h]
  · rfl

theorem ageAttribute_eq_iff {date date' : Bytes} :
    ageAttribute cookie date = ageAttribute cookie date' ↔
      0 < cookie.maxAge ∨ cookie.expires = 0 ∨ date = date' := by
  rw [ageAttribute, ageAttribute]
  split_ifs with hage hexpires
  · exact iff_of_true rfl (.inl hage)
  · rw [List.append_cancel_left_eq]
    constructor
    · exact fun h => .inr (.inr h)
    · rintro (h | h | h)
      · exact absurd h hage
      · exact absurd h (Nat.ne_of_gt hexpires)
      · exact h
  · exact iff_of_true rfl (.inr (.inl (Nat.eq_zero_of_not_pos hexpires)))

theorem buildCookieString_eq (cookie : Cookie) :
    HPackUtil.buildCookieString greenwich cookie = cookiePair (cookie.name, cookie) ++
      (labelled (bytes "; ") cookie.path ++ (labelled (bytes "; ") cookie.domain ++
        (ageAttribute cookie (greenwich cookie.expires) ++
          ((if cookie.secure then bytes "; Secure" else []) ++
            (if cookie.httpOnly then bytes "; HttpOnly" else []))))) := by
  simp only [HPackUtil.buildCookieString, cookiePair, labelled, ageAttribute, List.isEmpty_iff,
    List.append_assoc]

theorem cookieAttributes_eq_labelled (cookie : Cookie) :
    cookieAttributes cookie =
      labelled (bytes "; Path=") cookie.path ++ (labelled (bytes "; Domain=") cookie.domain ++
        (ageAttribute cookie (greenwich (cookie.expires * 1000000 % 2 ^ 64)) ++
          ((if cookie.secure then bytes "; Secure" else []) ++
            (if cookie.httpOnly then bytes "; HttpOnly" else [])))) := by
  simp only [cookieAttributes, labelled, ageAttribute, greenwich, List.append_assoc]

/-- The two texts agree for a cookie without path and domain, when it has an age or no time, or
when its time and the time for its microseconds lie whole calendar periods apart. -/
theorem setCookie_agrees_iff (cookie : Cookie) :
    sendSetCookie (CookieMap.add .empty cookie) =
        bytes "Set-Cookie: " ++ HPackUtil.buildCookieString greenwich cookie ++ [13, 10] ↔
      cookie.path = [] ∧ cookie.domain = [] ∧
        (0 < cookie.maxAge ∨ cookie.expires = 0 ∨
          cookie.expires / 1000 / 1000 ≡
            cookie.expires * 1000000 % 2 ^ 64 / 1000 / 1000 [MOD 315569520000]) := by
  have hdate : greenwich (cookie.expires * 1000000 % 2 ^ 64) = greenwich cookie.expires ↔ _ :=
    format_new_eq_iff
  have hage : ageAttribute cookie (greenwich (cookie.expires * 1000000 % 2 ^ 64)) =
      ageAttribute cookie (greenwich cookie.expires) ↔ _ := ageAttribute_eq_iff
  rw [sendSetCookie_add_empty, List.append_cancel_right_eq, List.append_cancel_left_eq,
    cookieAttributes_eq_labelled, buildCookieString_eq, List.append_cancel_left_eq, Nat.ModEq.comm,
    ← hdate, ← hage]
  constructor
  · intro h
    have hlen := congrArg List.length h
    have hages : (ageAttribute cookie (greenwich (cookie.expires * 1000000 % 2 ^ 64))).length =
        (ageAttribute cookie (greenwich cookie.expires)).length :=
      length_ageAttribute ((length_format_new _).trans (length_format_new _).symm)
    have hpaths : (labelled (bytes "; ") cookie.path).length ≤
        (labelled (bytes "; Path=") cookie.path).length := length_labelled_le (by decide) _
    have hdomains : (labelled (bytes "; ") cookie.domain).length ≤
        (labelled (bytes "; Domain=") cookie.domain).length := length_labelled_le (by decide) _
    simp only [List.length_append, hages] at hlen
    have hpath : cookie.path = [] :=
      eq_nil_of_length_labelled (by decide : (bytes "; ").length < (bytes "; Path=").length)
        (by omega)
    have hdomain : cookie.domain = [] :=
      eq_nil_of_length_labelled (by decide : (bytes "; ").length < (bytes "; Domain=").length)
        (by omega)
    simp only [hpath, hdomain, labelled_nil, List.nil_append, List.append_cancel_right_eq] at h
    exact ⟨hpath, hdomain, h⟩
  · rintro ⟨hpath, hdomain, heq⟩
    simp only [hpath, hdomain, labelled_nil, heq]

/-- The cookie of the path `/`. -/
theorem setCookie_root_path :
    sendSetCookie (CookieMap.add .empty { name := bytes "id", value := bytes "1", path := bytes "/" }) ≠
      bytes "Set-Cookie: " ++ HPackUtil.buildCookieString greenwich
        { name := bytes "id", value := bytes "1", path := bytes "/" } ++ [13, 10] := by
  decide

end Sese.Net.Http
