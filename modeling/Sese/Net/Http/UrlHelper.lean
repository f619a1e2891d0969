import Mathlib.Data.List.Infix
import Mathlib.Data.List.TakeWhile
import Mathlib.Tactic
import Sese.Util.Bytes

/-!
# URLs and their parts

`Url::Url` looks for `://`, then for a slash, then for a question mark, each from where the one
before it was found. The first two may be found within a part that comes later.
-/
namespace Sese.Net.Http

/-- The first place where `sub` begins; `pos` is the place of the first octet. -/
def findFrom (sub : Bytes) : ℕ → Bytes → Option ℕ
  | pos, [] => if sub.isEmpty then some pos else none
  | pos, b :: text =>
    if sub.isPrefixOf (b :: text) then some pos else findFrom sub (pos + 1) text

def find (text sub : Bytes) (pos : ℕ) : Option ℕ :=
  if pos ≤ text.length then findFrom sub pos (text.drop pos) else none

@[ext] structure Url where
  protocol : Bytes := []
  host : Bytes := []
  url : Bytes := []
  query : Bytes := []
  deriving DecidableEq

def between (text : Bytes) (first last : ℕ) : Bytes := (text.drop first).take (last - first)

/-- What `Url::Url` does behind the protocol. A part that reaches to the end is taken as a C string. -/
def Url.behind (url protocol : Bytes) (protocol_end : ℕ) : Url :=
  match find url (bytes "/") protocol_end with
  | some host_end =>
    let host := between url protocol_end host_end
    match find url (bytes "?") host_end with
    | none => ⟨protocol, host, cstr (url.drop host_end), []⟩
    | some uri_end => ⟨protocol, host, between url host_end uri_end, cstr (url.drop uri_end)⟩
  | none =>
    let host_end := protocol_end
    match find url (bytes "?") host_end with
    | none => ⟨protocol, cstr (url.drop host_end), bytes "/", []⟩
    | some uri_end =>
      ⟨protocol, between url host_end uri_end, bytes "/", cstr (url.drop uri_end)⟩

/-- `Url::Url`. -/
def Url.ofString (url : Bytes) : Url :=
  match find url (bytes "://") 0 with
  | some protocol_end => Url.behind url (url.take protocol_end) (protocol_end + 3)
  | none => Url.behind url [] 0

section

variable {sub text front rest : Bytes} {c : UInt8} {pos n : ℕ}

theorem findFrom_some (h : findFrom sub pos text = some n) :
    ∃ front rest, text = front ++ (sub ++ rest) ∧ n = pos + front.length := by
  induction text generalizing pos with
  | nil =>
    rw [findFrom] at h
    split_ifs at h with hsub
    rw [List.isEmpty_iff.mp hsub]
    exact ⟨[], [], rfl, (Option.some.inj h).symm⟩
  | cons b text ih =>
    rw [findFrom] at h
    split_ifs at h with hsub
    · obtain ⟨rest, hrest⟩ := List.isPrefixOf_iff_prefix.mp hsub
      exact ⟨[], rest, hrest.symm, (Option.some.inj h).symm⟩
    · obtain ⟨front, rest, rfl, rfl⟩ := ih h
      exact ⟨b :: front, rest, rfl, by rw [List.length_cons]; omega⟩

theorem findFrom_eq_none_iff : findFrom sub pos text = none ↔ ¬ sub <:+: text := by
  induction text generalizing pos with
  | nil =>
    rw [findFrom, List.infix_nil]
    split_ifs with hsub
    · simpa using hsub
    · simpa using hsub
  | cons b text ih =>
    rw [findFrom, List.infix_cons_iff]
    split_ifs with hsub
    · simpa using fun h => absurd (List.isPrefixOf_iff_prefix.mp hsub) h
    · rw [ih, not_or, ← List.isPrefixOf_iff_prefix]
      exact ⟨fun h => ⟨hsub, h⟩, fun h => h.2⟩

theorem findFrom_append (h : c ∉ front) :
    findFrom (c :: sub) pos (front ++ (c :: sub ++ rest)) = some (pos + front.length) := by
  induction front generalizing pos with
  | nil =>
    rw [List.nil_append, List.cons_append, findFrom, if_pos]
    · rfl
    · simp
  | cons b front ih =>
    rw [List.mem_cons, not_or] at h
    rw [List.cons_append, findFrom, if_neg, ih h.2, List.length_cons]
    · congr 1
      omega
    · simp [List.isPrefixOf, h.1]

theorem findFrom_none (h : c ∉ text) : findFrom (c :: sub) pos text = none := by
  rw [findFrom_eq_none_iff]
  rintro ⟨front, rest, rfl⟩
  exact h (by simp)

theorem find_append (pre : Bytes) : find (pre ++ text) sub pre.length = findFrom sub pre.length text := by
  rw [find, if_pos (by simp), List.drop_left]

theorem between_append (pre part rest : Bytes) :
    between (pre ++ (part ++ rest)) pre.length (pre.length + part.length) = part := by
  rw [between, List.drop_left, Nat.add_sub_cancel_left, List.take_left]

theorem find_some {url : Bytes} (h : find url sub pos = some n) : pos ≤ n ∧ n + sub.length ≤ url.length := by
  rw [find] at h
  split_ifs at h with hpos
  obtain ⟨front, rest, htext, rfl⟩ := findFrom_some h
  have hlen := congrArg List.length htext
  simp only [List.length_drop, List.length_append] at hlen
  omega

theorem find_eq_none_iff {url : Bytes} : find url sub 0 = none ↔ ¬ sub <:+: url := by
  rw [find, if_pos (Nat.zero_le _), List.drop_zero, findFrom_eq_none_iff]

theorem length_behind {url protocol : Bytes} (h : pos ≤ url.length) :
    (Url.behind url protocol pos).host.length + (Url.behind url protocol pos).url.length +
      (Url.behind url protocol pos).query.length ≤ url.length - pos + 1 := by
  have hcstr : ∀ s : Bytes, (cstr s).length ≤ s.length := fun s => (List.takeWhile_prefix _).length_le
  have hbetween : ∀ first last, (between url first last).length ≤ last - first :=
    fun first last => List.length_take_le _ _
  have hslash : (bytes "/").length = 1 := rfl
  unfold Url.behind
  cases hhost : find url (bytes "/") pos with
  | some host_end =>
    obtain ⟨hle, hend⟩ := find_some hhost
    have hpart := hbetween pos host_end
    dsimp only
    cases huri : find url (bytes "?") host_end with
    | none =>
      have hrest := hcstr (url.drop host_end)
      rw [List.length_drop] at hrest
      dsimp only [List.length_nil]
      omega
    | some uri_end =>
      obtain ⟨hle', hend'⟩ := find_some huri
      have hpath := hbetween host_end uri_end
      have hrest := hcstr (url.drop uri_end)
      rw [List.length_drop] at hrest
      dsimp only
      omega
  | none =>
    dsimp only
    cases huri : find url (bytes "?") pos with
    | none =>
      have hrest := hcstr (url.drop pos)
      rw [List.length_drop] at hrest
      dsimp only [List.length_nil]
      omega
    | some uri_end =>
      obtain ⟨hle', hend'⟩ := find_some huri
      have hpart := hbetween pos uri_end
      have hrest := hcstr (url.drop uri_end)
      rw [List.length_drop] at hrest
      dsimp only
      omega

end

/-- The parts that a URL is put together from. -/
structure UrlParts where
  scheme : Option Bytes
  authority : Bytes
  path : Bytes
  query : Option Bytes

namespace UrlParts

structure Valid (parts : UrlParts) : Prop where
  scheme : ∀ s ∈ parts.scheme, (58 : UInt8) ∉ s ∧ (47 : UInt8) ∉ s ∧ (63 : UInt8) ∉ s
  authority : (47 : UInt8) ∉ parts.authority ∧ (63 : UInt8) ∉ parts.authority
  path : parts.path = [] ∨ parts.path.head? = some 47 ∧ (63 : UInt8) ∉ parts.path

def schemeText (parts : UrlParts) : Bytes :=
  match parts.scheme with
  | some s => s ++ bytes "://"
  | none => []

def queryText (parts : UrlParts) : Bytes :=
  match parts.query with
  | some q => 63 :: q
  | none => []

def rest (parts : UrlParts) : Bytes := parts.authority ++ (parts.path ++ parts.queryText)

def text (parts : UrlParts) : Bytes := parts.schemeText ++ parts.rest

/-- What these parts are called. -/
def toUrl (parts : UrlParts) : Url where
  protocol := parts.scheme.getD []
  host := parts.authority
  url := if parts.path = [] then bytes "/" else parts.path
  query := parts.queryText

def lastPart (parts : UrlParts) : Bytes :=
  match parts.query with
  | some q => 63 :: q
  | none => if parts.path = [] then parts.authority else parts.path

/-- Nothing behind the scheme is taken for a separator that comes before it, and the last part has no
NUL. -/
structure Readable (parts : UrlParts) : Prop where
  scheme : parts.scheme = none → ¬ bytes "://" <:+: parts.rest
  query : parts.path = [] → ∀ q ∈ parts.query, (47 : UInt8) ∉ q
  nul : (0 : UInt8) ∉ parts.lastPart

variable {parts : UrlParts} {pre protocol : Bytes}

theorem cstr_eq_self_iff {s : Bytes} : cstr s = s ↔ (0 : UInt8) ∉ s := by
  refine ⟨fun h h0 => ?_, cstr_eq_self⟩
  have hall := List.takeWhile_eq_self_iff.mp h 0 h0
  simp at hall

theorem behind_path (h : parts.Valid) (hpath : parts.path ≠ []) :
    Url.behind (pre ++ parts.rest) protocol pre.length =
      ⟨protocol, parts.authority, if parts.query = none then cstr parts.path else parts.path,
        cstr parts.queryText⟩ := by
  obtain ⟨p, hp⟩ : ∃ p, parts.path = 47 :: p := by
    rcases h.path with hnil | ⟨hhead, -⟩
    · exact absurd hnil hpath
    · exact List.head?_eq_some_iff.mp hhead
  have hquestion : (63 : UInt8) ∉ parts.path := by
    rcases h.path with hnil | ⟨-, hq⟩
    · exact absurd hnil hpath
    · exact hq
  have hslash : find (pre ++ parts.rest) (bytes "/") pre.length =
      some (pre.length + parts.authority.length) := by
    rw [find_append, rest, hp]
    exact findFrom_append h.authority.1
  have hsplit : pre ++ parts.rest = (pre ++ parts.authority) ++ (parts.path ++ parts.queryText) := by
    rw [rest, List.append_assoc]
  have hlen : pre.length + parts.authority.length = (pre ++ parts.authority).length := by
    rw [List.length_append]
  have hhost : between (pre ++ parts.rest) pre.length (pre.length + parts.authority.length) =
      parts.authority := between_append _ _ _
  rw [Url.behind, hslash]
  dsimp only
  rw [hhost, hsplit, hlen]
  unfold queryText
  cases parts.query with
  | none =>
    have hnone : find (pre ++ parts.authority ++ (parts.path ++ [])) (bytes "?")
        (pre ++ parts.authority).length = none := by
      rw [find_append, List.append_nil]
      exact findFrom_none hquestion
    dsimp only
    rw [hnone, List.drop_left, List.append_nil, if_pos rfl]
    rfl
  | some q =>
    have hsome : find (pre ++ parts.authority ++ (parts.path ++ 63 :: q)) (bytes "?")
        (pre ++ parts.authority).length = some ((pre ++ parts.authority).length + parts.path.length) := by
      rw [find_append]
      exact findFrom_append hquestion
    dsimp only
    rw [hsome]
    dsimp only
    rw [between_append, if_neg (Option.some_ne_none q), ← List.length_append, ← List.append_assoc,
      List.drop_left]

theorem behind_no_path (h : parts.Valid) (hpath : parts.path = [])
    (hquery : ∀ q ∈ parts.query, (47 : UInt8) ∉ q) :
    Url.behind (pre ++ parts.rest) protocol pre.length =
      ⟨protocol, if parts.query = none then cstr parts.authority else parts.authority, bytes "/",
        cstr parts.queryText⟩ := by
  have hslash : find (pre ++ parts.rest) (bytes "/") pre.length = none := by
    rw [find_append]
    apply findFrom_none
    rw [rest, hpath, List.nil_append, List.mem_append, not_or]
    refine ⟨h.authority.1, ?_⟩
    unfold queryText
    cases hq : parts.query with
    | none => exact List.not_mem_nil
    | some q =>
      rw [List.mem_cons, not_or]
      exact ⟨by decide, hquery q hq⟩
  rw [Url.behind, hslash]
  dsimp only
  rw [rest, hpath, List.nil_append]
  unfold queryText
  cases parts.query with
  | none =>
    have hnone : find (pre ++ (parts.authority ++ [])) (bytes "?") pre.length = none := by
      rw [find_append, List.append_nil]
      exact findFrom_none h.authority.2
    dsimp only
    rw [hnone, List.drop_left, List.append_nil, if_pos rfl]
    rfl
  | some q =>
    have hsome : find (pre ++ (parts.authority ++ 63 :: q)) (bytes "?") pre.length =
        some (pre.length + parts.authority.length) := by
      rw [find_append]
      exact findFrom_append h.authority.2
    dsimp only
    rw [hsome]
    dsimp only
    rw [between_append, if_neg (Option.some_ne_none q), ← List.length_append, ← List.append_assoc,
      List.drop_left]

/-- Without a path a slash of the query is taken for the start of one. -/
theorem behind_slash (h : parts.Valid) (hpath : parts.path = []) {q : Bytes}
    (hq : parts.query = some q) (hslash : (47 : UInt8) ∈ q) :
    (Url.behind (pre ++ parts.rest) protocol pre.length).host ≠ parts.authority := by
  obtain ⟨front, behind, rfl, hfront⟩ := List.eq_append_cons_of_mem hslash
  have hrest : parts.rest = (parts.authority ++ 63 :: front) ++ (47 :: behind) := by
    rw [rest, hpath, queryText, hq]
    simp
  have hnot : (47 : UInt8) ∉ parts.authority ++ 63 :: front := by
    simp [h.authority.1, hfront]
  have hfound : find (pre ++ parts.rest) (bytes "/") pre.length =
      some (pre.length + (parts.authority ++ 63 :: front).length) := by
    rw [find_append, hrest]
    exact findFrom_append hnot
  have hhost : (Url.behind (pre ++ parts.rest) protocol pre.length).host =
      parts.authority ++ 63 :: front := by
    rw [Url.behind, hfound]
    dsimp only
    have hbetween : between (pre ++ parts.rest) pre.length
        (pre.length + (parts.authority ++ 63 :: front).length) = parts.authority ++ 63 :: front := by
      rw [hrest]
      exact between_append _ _ _
    rw [hbetween]
    cases find (pre ++ parts.rest) (bytes "?") _ <;> rfl
  rw [hhost]
  intro heq
  simpa using congrArg List.length heq

theorem behind_iff (h : parts.Valid) (hprotocol : protocol = parts.scheme.getD []) :
    Url.behind (pre ++ parts.rest) protocol pre.length = parts.toUrl ↔
      (parts.path = [] → ∀ q ∈ parts.query, (47 : UInt8) ∉ q) ∧ (0 : UInt8) ∉ parts.lastPart := by
  by_cases hpath : parts.path = []
  · by_cases hquery : ∀ q ∈ parts.query, (47 : UInt8) ∉ q
    · have hleft : parts.path = [] → ∀ q ∈ parts.query, (47 : UInt8) ∉ q := fun _ => hquery
      rw [and_iff_right hleft, behind_no_path h hpath hquery, toUrl, hprotocol, if_pos hpath, lastPart,
        queryText, ← cstr_eq_self_iff, if_pos hpath]
      cases parts.query with
      | none => simp [cstr]
      | some q => simp
    · refine iff_of_false (fun heq => ?_) fun hcond => hquery (hcond.1 hpath)
      push Not at hquery
      obtain ⟨q, hq, hslash⟩ := hquery
      exact behind_slash h hpath hq hslash (congrArg Url.host heq)
  · have hleft : parts.path = [] → ∀ q ∈ parts.query, (47 : UInt8) ∉ q := fun hnil => absurd hnil hpath
    rw [and_iff_right hleft, behind_path h hpath, toUrl, hprotocol, if_neg hpath, lastPart, queryText,
      ← cstr_eq_self_iff, if_neg hpath]
    cases parts.query with
    | none => simp [cstr]
    | some q => simp

/-- Where no scheme is, `://` is taken for the end of one. -/
theorem ofString_ne (hscheme : parts.scheme = none) (hinside : bytes "://" <:+: parts.rest) :
    Url.ofString parts.text ≠ parts.toUrl := by
  have htext : parts.text = parts.rest := by rw [text, schemeText, hscheme, List.nil_append]
  have hsome : find parts.rest (bytes "://") 0 ≠ none := fun hnone => find_eq_none_iff.mp hnone hinside
  obtain ⟨protocol_end, hfound⟩ := Option.ne_none_iff_exists'.mp hsome
  obtain ⟨-, hend⟩ := find_some hfound
  have hthree : (bytes "://").length = 3 := rfl
  have hbehind : (Url.behind parts.rest (parts.rest.take protocol_end) (protocol_end + 3)).host.length +
      _ + _ ≤ _ := length_behind (hthree ▸ hend)
  rw [htext, Url.ofString, hfound]
  dsimp only
  intro heq
  have hrest : parts.rest.length ≤
      parts.toUrl.host.length + parts.toUrl.url.length + parts.toUrl.query.length := by
    have hurl : parts.path.length ≤ parts.toUrl.url.length := by
      rw [toUrl]
      dsimp only
      split_ifs with hnil
      · simp [hnil]
      · exact Nat.le_refl _
    rw [rest, List.length_append, List.length_append]
    have hhost : parts.toUrl.host = parts.authority := rfl
    have hquery : parts.toUrl.query = parts.queryText := rfl
    rw [hhost, hquery]
    omega
  rw [heq] at hbehind
  omega

/-- Which URLs are taken apart into their parts. -/
theorem ofString_eq_iff (h : parts.Valid) : Url.ofString parts.text = parts.toUrl ↔ parts.Readable := by
  cases hscheme : parts.scheme with
  | some s =>
    have hpre : parts.schemeText = s ++ bytes "://" := by rw [schemeText, hscheme]
    have hfound : find parts.text (bytes "://") 0 = some s.length := by
      have hplace : findFrom (58 :: [47, 47]) 0 (s ++ (58 :: [47, 47] ++ parts.rest)) = _ :=
        findFrom_append (h.scheme s hscheme).1
      rw [Nat.zero_add] at hplace
      rw [find, if_pos (Nat.zero_le _), List.drop_zero, text, hpre, List.append_assoc]
      exact hplace
    have htake : parts.text.take s.length = parts.scheme.getD [] := by
      rw [text, hpre, List.append_assoc, List.take_left, hscheme]
      rfl
    have hlen : s.length + 3 = parts.schemeText.length := by
      rw [hpre, List.length_append]
      rfl
    have hiff : Url.behind (parts.schemeText ++ parts.rest) _ _ = parts.toUrl ↔ _ := behind_iff h htake
    rw [Url.ofString, hfound]
    dsimp only
    rw [hlen]
    exact hiff.trans ⟨fun hcond => ⟨by simp [hscheme], hcond.1, hcond.2⟩,
      fun hread => ⟨hread.query, hread.nul⟩⟩
  | none =>
    by_cases hinside : bytes "://" <:+: parts.rest
    · exact iff_of_false (ofString_ne hscheme hinside) fun hread => hread.scheme hscheme hinside
    · have htext : parts.text = [] ++ parts.rest := by rw [text, schemeText, hscheme]
      have hfound : find ([] ++ parts.rest) (bytes "://") 0 = none := find_eq_none_iff.mpr hinside
      have hprotocol : [] = parts.scheme.getD [] := by
        rw [hscheme]
        rfl
      have hiff : Url.behind ([] ++ parts.rest) _ _ = parts.toUrl ↔ _ := behind_iff h hprotocol
      rw [htext, Url.ofString, hfound]
      exact hiff.trans ⟨fun hcond => ⟨fun _ => hinside, hcond.1, hcond.2⟩,
        fun hread => ⟨hread.query, hread.nul⟩⟩

/-- `https://localhost` with a query. -/
def localhost (query : String) : UrlParts :=
  ⟨some (bytes "https"), bytes "localhost", [], some (bytes query)⟩

theorem valid_localhost (query : String) : (localhost query).Valid := by
  have hhost : (47 : UInt8) ∉ bytes "localhost" ∧ (63 : UInt8) ∉ bytes "localhost" := by decide
  refine ⟨fun s hs => ?_, hhost, .inl rfl⟩
  obtain rfl : bytes "https" = s := Option.some.inj hs
  decide

theorem ofString_localhost :
    Url.ofString (localhost "a=b").text = (localhost "a=b").toUrl := by
  refine (ofString_eq_iff (valid_localhost _)).mpr ⟨nofun, fun _ q hq => ?_, by decide⟩
  obtain rfl : bytes "a=b" = q := Option.some.inj hq
  decide

/-- The slash in the query is taken for that of the path. -/
theorem slash_not_in_query :
    ¬ ∀ parts : UrlParts, parts.Valid → Url.ofString parts.text = parts.toUrl := by
  intro h
  have hparts := h _ (valid_localhost "a=/b")
  revert hparts
  decide +kernel

end UrlParts

end Sese.Net.Http
