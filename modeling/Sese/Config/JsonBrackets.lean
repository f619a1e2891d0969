import Sese.Config.JsonDocument
import Sese.Foundation.Nesting

/-!
# Brackets of a text

Which of the texts that `parse` accepts have matching brackets, among the tokens up to the end of
the root.
-/
namespace Sese.Json

open Foundation

/-- A bracket is a token of its own. -/
def shape (token : Bytes) : Bracket UInt8 :=
  if token = [123] then .opening 125
  else if token = [91] then .opening 93
  else if token = [125] then .closing 125
  else if token = [93] then .closing 93
  else .other

variable {δ : Type}

def closing : Value δ → UInt8
  | .dict _ => 125
  | _ => 93

theorem Opens.shape_eq {token : Bytes} {empty : Value δ} (h : Opens token empty) :
    shape token = .opening (closing empty) := by
  cases h <;> rfl

theorem IsWord.shape_eq {token : Bytes} (h : IsWord token) : shape token = .other := by
  have hobject : token ≠ [125] := by
    rintro rfl
    exact absurd h.keyword (by decide)
  have harray : token ≠ [93] := by
    rintro rfl
    exact absurd h.keyword (by decide)
  rw [shape, if_neg h.ne_object, if_neg h.ne_array, if_neg hobject, if_neg harray]

theorem closing_resume (place : Waiting δ) {top value : Value δ} {tokens tail : Tokens} {token : Bytes}
    (h : Place top tokens place token tail) : closing (place.resume value) = closing top := by
  cases h <;> rfl

/-- The tokens end with what closes the container, and all brackets in front of it match. -/
def Matched (top : Value δ) (used : Tokens) : Prop :=
  ∃ word, used = word ++ [[closing top]] ∧ Neutral shape word

/-- The brackets do not match, or there are no more tokens and nothing that was open in front of
these is closed. -/
def Spoilt (used rest : Tokens) : Prop :=
  ∀ stack, nest shape stack used = none ∨
    rest = [] ∧ ∃ more, nest shape stack used = some (more ++ stack)

theorem shape_closing (top : Value δ) : shape [closing top] = .closing (closing top) := by
  cases top <;> rfl

theorem Matched.behind {top top' : Value δ} {front used : Tokens} (h : Matched top used)
    (hfront : Neutral shape front) (hclosing : closing top = closing top') :
    Matched top' (front ++ used) := by
  obtain ⟨word, rfl, hword⟩ := h
  exact ⟨front ++ word, by rw [List.append_assoc, hclosing], hfront.append hword⟩

theorem Spoilt.behind {front used rest : Tokens} (h : Spoilt used rest)
    (hfront : Neutral shape front) : Spoilt (front ++ used) rest := by
  intro stack
  rw [hfront.nest_append]
  exact h stack

variable [Double δ]

/-- From the first container, with the tokens in front of it, the parser comes to another one while
it reads the first. -/
inductive ComesTo : Value δ → Tokens → Value δ → Tokens → Prop
  | here (top : Value δ) (tokens : Tokens) : ComesTo top tokens top tokens
  | next {top top' v : Value δ} {tokens tail tokens' : Tokens} {place : Waiting δ} {token : Bytes} :
    Place top tokens place token tail → IsWord token → parseBasic token = .ok v →
    ComesTo (place.resume v) tail top' tokens' → ComesTo top tokens top' tokens'
  | inside {top top' empty : Value δ} {tokens inside tokens' : Tokens} {place : Waiting δ}
    {token : Bytes} : Place top tokens place token inside → Opens token empty →
    ComesTo (place.child empty) inside top' tokens' → ComesTo top tokens top' tokens'
  | behind {top top' empty child : Value δ} {tokens inside tail tokens' : Tokens}
    {place : Waiting δ} {token : Bytes} : Place top tokens place token inside → Opens token empty →
    Read (place.child empty) inside child tail → ComesTo (place.resume child) tail top' tokens' →
    ComesTo top tokens top' tokens'

def Named (top : Value δ) (tokens : Tokens) : Prop :=
  ∀ members tokens' name tail, ComesTo top tokens (.dict members) tokens' →
    After 125 tokens' name tail → shape name = .other

def Closed (top : Value δ) (tokens : Tokens) : Prop :=
  ∀ values, ¬ ComesTo top tokens (.list values) []

/-- What is filled behind an opening bracket is a container of its kind. -/
def Kept (top : Value δ) (tokens : Tokens) : Prop :=
  ∀ top' empty place token tokens' inside, ComesTo top tokens top' tokens' →
    Place top' tokens' place token inside → Opens token empty →
    closing (place.child empty) = closing empty

theorem comesTo_finishes {top top' : Value δ} {tokens tokens' rest : Tokens}
    (h : Finishes top tokens rest) :
    ComesTo top tokens top' tokens' ↔ top' = top ∧ tokens' = tokens := by
  constructor
  · intro hcomes
    cases hcomes with
    | here => exact ⟨rfl, rfl⟩
    | next hplace _ _ _ => exact absurd h hplace.not_finishes
    | inside hplace _ _ => exact absurd h hplace.not_finishes
    | behind hplace _ _ _ => exact absurd h hplace.not_finishes
  · rintro ⟨rfl, rfl⟩
    exact .here _ _

theorem comesTo_word {top top' v : Value δ} {tokens tail tokens' : Tokens} {place : Waiting δ}
    {token : Bytes} (h : Place top tokens place token tail) (hword : IsWord token)
    (hbasic : parseBasic token = .ok v) :
    ComesTo top tokens top' tokens' ↔
      (top' = top ∧ tokens' = tokens) ∨ ComesTo (place.resume v) tail top' tokens' := by
  constructor
  · intro hcomes
    cases hcomes with
    | here => exact .inl ⟨rfl, rfl⟩
    | next hplace _ hbasic' hcomes =>
      obtain ⟨rfl, rfl, rfl⟩ := h.unique hplace
      cases hbasic.symm.trans hbasic'
      exact .inr hcomes
    | inside hplace hopens _ =>
      obtain ⟨rfl, rfl, rfl⟩ := h.unique hplace
      exact absurd hword hopens.not_word
    | behind hplace hopens _ _ =>
      obtain ⟨rfl, rfl, rfl⟩ := h.unique hplace
      exact absurd hword hopens.not_word
  · rintro (⟨rfl, rfl⟩ | hcomes)
    · exact .here _ _
    · exact .next h hword hbasic hcomes

theorem comesTo_container {top top' empty child : Value δ} {tokens inside tail tokens' : Tokens}
    {place : Waiting δ} {token : Bytes} (h : Place top tokens place token inside)
    (hopens : Opens token empty) (hread : Read (place.child empty) inside child tail) :
    ComesTo top tokens top' tokens' ↔ (top' = top ∧ tokens' = tokens) ∨
      ComesTo (place.child empty) inside top' tokens' ∨
      ComesTo (place.resume child) tail top' tokens' := by
  constructor
  · intro hcomes
    cases hcomes with
    | here => exact .inl ⟨rfl, rfl⟩
    | next hplace hword _ _ =>
      obtain ⟨rfl, rfl, rfl⟩ := h.unique hplace
      exact absurd hword hopens.not_word
    | inside hplace hopens' hcomes =>
      obtain ⟨rfl, rfl, rfl⟩ := h.unique hplace
      obtain rfl := hopens.unique hopens'
      exact .inr (.inl hcomes)
    | behind hplace hopens' hread' hcomes =>
      obtain ⟨rfl, rfl, rfl⟩ := h.unique hplace
      obtain rfl := hopens.unique hopens'
      obtain ⟨rfl, rfl⟩ := hread.unique hread'
      exact .inr (.inr hcomes)
  · rintro (⟨rfl, rfl⟩ | hcomes | hcomes)
    · exact .here _ _
    · exact .inside h hopens hcomes
    · exact .behind h hopens hread hcomes

/-- Both: what is read is closed by the brackets that it has opened. -/
def Terminated (top : Value δ) (tokens : Tokens) : Prop := Closed top tokens ∧ Kept top tokens

theorem terminated_finishes {top : Value δ} {tokens rest : Tokens} (h : Finishes top tokens rest) :
    Terminated top tokens ↔ tokens ≠ [] := by
  simp only [Terminated, Closed, Kept, comesTo_finishes h]
  constructor
  · rintro ⟨hclosed, -⟩ rfl
    cases h with
    | tokens values => exact hclosed values ⟨rfl, rfl⟩
  · intro hne
    refine ⟨fun values heq => hne heq.2.symm, ?_⟩
    rintro top' empty place token tokens' inside ⟨rfl, rfl⟩ hplace
    exact absurd h hplace.not_finishes

theorem terminated_word {top v : Value δ} {tokens tail : Tokens} {place : Waiting δ}
    {token : Bytes} (h : Place top tokens place token tail) (hword : IsWord token)
    (hbasic : parseBasic token = .ok v) :
    Terminated top tokens ↔ Terminated (place.resume v) tail := by
  simp only [Terminated, Closed, Kept, comesTo_word h hword hbasic]
  constructor
  · rintro ⟨hclosed, hkept⟩
    exact ⟨fun values hcomes => hclosed values (.inr hcomes),
      fun top' empty place token tokens' inside hcomes => hkept top' empty place token tokens' inside
        (.inr hcomes)⟩
  · rintro ⟨hclosed, hkept⟩
    constructor
    · rintro values (⟨rfl, rfl⟩ | hcomes)
      · cases h with
        | element hafter => cases hafter
      · exact hclosed values hcomes
    · rintro top' empty place' token' tokens' inside (⟨rfl, rfl⟩ | hcomes) hplace hopens
      · obtain ⟨rfl, rfl, rfl⟩ := h.unique hplace
        exact absurd hword hopens.not_word
      · exact hkept top' empty place' token' tokens' inside hcomes hplace hopens

theorem terminated_container {top empty child : Value δ} {tokens inside tail : Tokens}
    {place : Waiting δ} {token : Bytes} (h : Place top tokens place token inside)
    (hopens : Opens token empty) (hread : Read (place.child empty) inside child tail) :
    Terminated top tokens ↔ closing (place.child empty) = closing empty ∧
      Terminated (place.child empty) inside ∧ Terminated (place.resume child) tail := by
  simp only [Terminated, Closed, Kept, comesTo_container h hopens hread]
  constructor
  · rintro ⟨hclosed, hkept⟩
    exact ⟨hkept _ _ _ _ _ _ (.inl ⟨rfl, rfl⟩) h hopens,
      ⟨fun values hcomes => hclosed values (.inr (.inl hcomes)),
        fun top' empty place token tokens' inside hcomes =>
          hkept top' empty place token tokens' inside (.inr (.inl hcomes))⟩,
      fun values hcomes => hclosed values (.inr (.inr hcomes)),
      fun top' empty place token tokens' inside hcomes =>
        hkept top' empty place token tokens' inside (.inr (.inr hcomes))⟩
  · rintro ⟨hkind, ⟨hclosed, hkept⟩, hclosed', hkept'⟩
    constructor
    · rintro values (⟨rfl, rfl⟩ | hcomes | hcomes)
      · cases h with
        | element hafter => cases hafter
      · exact hclosed values hcomes
      · exact hclosed' values hcomes
    · rintro top' empty' place' token' tokens' inside' (⟨rfl, rfl⟩ | hcomes | hcomes) hplace hopens'
      · obtain ⟨rfl, rfl, rfl⟩ := h.unique hplace
        obtain rfl := hopens.unique hopens'
        exact hkind
      · exact hkept top' empty' place' token' tokens' inside' hcomes hplace hopens'
      · exact hkept' top' empty' place' token' tokens' inside' hcomes hplace hopens'

theorem Place.split {top : Value δ} {tokens tail : Tokens} {place : Waiting δ} {token : Bytes}
    (h : Place top tokens place token tail) (hnamed : Named top tokens) :
    ∃ front, tokens = front ++ token :: tail ∧ Neutral shape front := by
  cases h with
  | @member members tokens tail name token hafter hname =>
    have hother := hnamed members tokens name _ (.here _ _) hafter
    have hfront : Neutral shape [name, [58]] := .other hother (.other rfl neutral_nil)
    cases hafter with
    | plain _ _ _ => exact ⟨_, rfl, hfront⟩
    | comma _ _ => exact ⟨[44] :: [name, [58]], rfl, .other rfl hfront⟩
  | element hafter =>
    cases hafter with
    | plain _ _ _ => exact ⟨[], rfl, neutral_nil⟩
    | comma _ _ => exact ⟨[[44]], rfl, .other rfl neutral_nil⟩

/-- The containers that are read are terminated, or their brackets do not match. -/
theorem Read.brackets {top value : Value δ} {tokens rest : Tokens} (h : Read top tokens value rest)
    (hnamed : Named top tokens) :
    ∃ used, tokens = used ++ rest ∧ (Terminated top tokens ∧ Matched top used ∨
      ¬ Terminated top tokens ∧ Spoilt used rest) := by
  induction h with
  | finishes hfinishes =>
    rw [terminated_finishes hfinishes]
    cases hfinishes with
    | object members rest => exact ⟨[[125]], rfl, .inl ⟨List.cons_ne_nil _ _, [], rfl, neutral_nil⟩⟩
    | array values rest => exact ⟨[[93]], rfl, .inl ⟨List.cons_ne_nil _ _, [], rfl, neutral_nil⟩⟩
    | tokens values =>
      exact ⟨[], rfl, .inr ⟨fun h => h rfl, fun stack => .inr ⟨rfl, [], nest_nil⟩⟩⟩
  | @word top v value tokens tail rest place token hplace hword hbasic _ ih =>
    obtain ⟨front, rfl, hfront⟩ := hplace.split hnamed
    obtain ⟨used, rfl, hused⟩ := ih fun members tokens' name tail hcomes =>
      hnamed members tokens' name tail (.next hplace hword hbasic hcomes)
    have hword' := hfront.append (.other hword.shape_eq neutral_nil)
    rw [terminated_word hplace hword hbasic]
    refine ⟨front ++ [token] ++ used, by simp, hused.imp ?_ ?_⟩
    · exact fun hends => ⟨hends.1, hends.2.behind hword' (closing_resume _ hplace)⟩
    · exact fun hspoilt => ⟨hspoilt.1, hspoilt.2.behind hword'⟩
  | @container top empty child value tokens inside tail rest place token hplace hopens hinside hbehind
      ihInside ihBehind =>
    obtain ⟨front, rfl, hfront⟩ := hplace.split hnamed
    obtain ⟨used, rfl, hused⟩ := ihInside fun members tokens' name tail' hcomes =>
      hnamed members tokens' name tail' (.inside hplace hopens hcomes)
    obtain ⟨used', rfl, hused'⟩ := ihBehind fun members tokens' name tail' hcomes =>
      hnamed members tokens' name tail' (.behind hplace hopens hinside hcomes)
    have hopened (stack : List UInt8) : nest shape stack (front ++ token :: used ++ used') =
        (nest shape (closing empty :: stack) used).bind fun stack => nest shape stack used' := by
      rw [List.append_assoc, hfront.nest_append, List.cons_append, nest_opening hopens.shape_eq,
        nest_append]
    rw [terminated_container hplace hopens hinside]
    refine ⟨front ++ token :: used ++ used', by simp, ?_⟩
    rcases hused with ⟨hterminated, word, rfl, hword⟩ | ⟨hnot, hspoilt⟩
    · by_cases hkind : closing (place.child empty) = closing empty
      · have hclosing : shape [closing (place.child empty)] = .closing (closing empty) := by
          rw [shape_closing, hkind]
        have hwhole := hfront.append (hword.enclose hopens.shape_eq hclosing)
        refine hused'.imp ?_ ?_
        · exact fun hends =>
            ⟨⟨hkind, hterminated, hends.1⟩, hends.2.behind hwhole (closing_resume _ hplace)⟩
        · exact fun hspoilt => ⟨fun h => hspoilt.1 h.2.2, hspoilt.2.behind hwhole⟩
      · refine .inr ⟨fun h => hkind h.1, fun stack => .inl ?_⟩
        rw [hopened, hword.nest_mismatch (shape_closing _) (Ne.symm hkind)]
        rfl
    · refine .inr ⟨fun h => hnot h.2.1, fun stack => ?_⟩
      rw [hopened]
      rcases hspoilt (closing empty :: stack) with hnone | ⟨htail, more, hsome⟩
      · rw [hnone]
        exact .inl rfl
      · obtain ⟨rfl, rfl⟩ := List.append_eq_nil_iff.mp htail
        rw [hsome]
        refine .inr ⟨rfl, more ++ [closing empty], ?_⟩
        simp

/-- The parser takes these tokens of the text, up to the end of the root. -/
inductive Takes (δ : Type) [Double δ] (text : Bytes) : Tokens → Prop
  | mk {front : Bytes} {empty value : Value δ} {tokens used rest : Tokens} :
    tokenizer .between text = some (front :: tokens) → Opens front empty →
    Read empty tokens value rest → tokens = used ++ rest → Takes δ text (front :: used)

/-- The parser comes to the container when it reads the text. -/
inductive ComesFrom (text : Bytes) : Value δ → Tokens → Prop
  | mk {front : Bytes} {empty top : Value δ} {tokens tokens' : Tokens} :
    tokenizer .between text = some (front :: tokens) → Opens front empty →
    ComesTo empty tokens top tokens' → ComesFrom text top tokens'

/-- `parse` returns a value other than `null` exactly for the texts whose root it reads. -/
theorem takes_iff (text : Bytes) :
    (∃ used, Takes δ text used) ↔ ∃ value : Value δ, parse text = .ok value ∧ value ≠ .null := by
  constructor
  · rintro ⟨-, htokens, hopens, hread, -⟩
    exact Accepted.parse_eq ⟨_, _, htokens, .mk hopens hread⟩
  · rintro ⟨value, hvalue, hne⟩
    rcases parse_cases (δ := δ) text with haccepted | ⟨word, fault, hcomes, hfault⟩ | hnull
    · obtain ⟨tokens, value, htokens, hopens, hread⟩ := haccepted
      obtain ⟨used, hused⟩ := hread.suffix
      exact ⟨_, .mk htokens hopens hread hused.symm⟩
    · rw [hcomes.parse_eq hfault] at hvalue
      cases hvalue
    · rw [hnull] at hvalue
      cases hvalue
      exact absurd rfl hne

/-- In the text that is read no bracket is the name of a member. -/
def PlainNames (δ : Type) [Double δ] (text : Bytes) : Prop :=
  ∀ (members : List (Bytes × Value δ)) (tokens : Tokens) (name : Bytes) (tail : Tokens),
    ComesFrom text (.dict members) tokens → After 125 tokens name tail → shape name = .other

/-- In the text that is read no array comes to the end of the tokens, and what is filled behind an
opening bracket is a container of its kind. -/
structure ClosesAll (δ : Type) [Double δ] (text : Bytes) : Prop where
  closed (values : List (Value δ)) : ¬ ComesFrom text (.list values) []
  kept {top empty : Value δ} {place : Waiting δ} {token : Bytes} {tokens inside : Tokens} :
    ComesFrom text top tokens → Place top tokens place token inside → Opens token empty →
    closing (place.child empty) = closing empty

theorem closesAll_iff {text front : Bytes} {empty : Value δ} {tokens : Tokens}
    (htokens : tokenizer .between text = some (front :: tokens)) (hopens : Opens front empty) :
    ClosesAll δ text ↔ Terminated empty tokens := by
  have hcomes (top : Value δ) (tokens' : Tokens) :
      ComesFrom text top tokens' ↔ ComesTo empty tokens top tokens' := by
    constructor
    · rintro ⟨htokens', hopens', hcomes⟩
      obtain ⟨rfl, rfl⟩ := List.cons_eq_cons.mp (Option.some.inj (htokens.symm.trans htokens'))
      obtain rfl := hopens.unique hopens'
      exact hcomes
    · exact .mk htokens hopens
  constructor
  · rintro ⟨hclosed, hkept⟩
    exact ⟨fun values h => hclosed values ((hcomes _ _).mpr h),
      fun top empty' place token tokens' inside h => hkept ((hcomes _ _).mpr h)⟩
  · rintro ⟨hclosed, hkept⟩
    exact ⟨fun values h => hclosed values ((hcomes _ _).mp h),
      fun h => hkept _ _ _ _ _ _ ((hcomes _ _).mp h)⟩

omit [Double δ] in
theorem Matched.wellNested {front : Bytes} {empty : Value δ} {used : Tokens} (hopens : Opens front empty)
    (h : Matched empty used) : WellNested shape (front :: used) := by
  obtain ⟨word, rfl, hword⟩ := h
  exact hword.enclose hopens.shape_eq (shape_closing empty) []

omit [Double δ] in
theorem Spoilt.not_wellNested {front : Bytes} {empty : Value δ} {used rest : Tokens}
    (hopens : Opens front empty) (h : Spoilt used rest) : ¬ WellNested shape (front :: used) := by
  rw [WellNested, nest_opening hopens.shape_eq]
  rcases h [closing empty] with hnone | ⟨-, more, hsome⟩
  · rw [hnone]
    simp
  · rw [hsome]
    simp

/-- Where no bracket is a name, the brackets of what is accepted match exactly when each container
is closed by its own. -/
theorem brackets_match_iff {text : Bytes} {value : Value δ} (hvalue : parse text = .ok value)
    (hne : value ≠ .null) (hnames : PlainNames δ text) :
    (∀ used, Takes δ text used → WellNested shape used) ↔ ClosesAll δ text := by
  obtain ⟨-, @⟨front, empty, _, tokens, used, rest, htokens, hopens, hread, rfl⟩⟩ :=
    (takes_iff text).mpr ⟨value, hvalue, hne⟩
  obtain ⟨used', hused, hbrackets⟩ := hread.brackets fun members tokens' name tail hcomes =>
    hnames members tokens' name tail (.mk htokens hopens hcomes)
  obtain rfl := List.append_cancel_right hused
  have htakes (taken : Tokens) : Takes δ text taken ↔ taken = front :: used := by
    constructor
    · rintro ⟨htokens', hopens', hread', htaken⟩
      obtain ⟨rfl, rfl⟩ := List.cons_eq_cons.mp (Option.some.inj (htokens.symm.trans htokens'))
      obtain rfl := hopens.unique hopens'
      obtain ⟨rfl, rfl⟩ := hread.unique hread'
      rw [List.append_cancel_right htaken]
    · rintro rfl
      exact .mk htokens hopens hread rfl
  simp only [htakes, forall_eq, closesAll_iff htokens hopens]
  rcases hbrackets with ⟨hterminated, hmatched⟩ | ⟨hnot, hspoilt⟩
  · exact iff_of_true (hmatched.wellNested hopens) hterminated
  · exact iff_of_false (hspoilt.not_wellNested hopens) hnot

/-- An array as the value of a member. -/
theorem brackets_match_arrayMember :
    (∀ used, Takes Empty (bytes "\x7b\"a\":[1]\x7d") used → WellNested shape used) ↔
      ClosesAll Empty (bytes "\x7b\"a\":[1]\x7d") := by
  have hvalue : parse (bytes "\x7b\"a\":[1]\x7d") =
      (.ok (.dict [([97], .list [.int 1])]) : Except Fault (Value Empty)) := by rfl
  refine brackets_match_iff hvalue (fun h => by cases h) ?_
  rintro members tokens name tail ⟨htokens, hopens, hcomes⟩ hafter
  have hscan : tokenizer .between (bytes "\x7b\"a\":[1]\x7d") =
      some [[123], [34, 97, 34], [58], [91], [49], [93], [125]] := by rfl
  cases hscan.symm.trans htokens
  cases hopens
  have hmember : Place (.dict [] : Value Empty) [[34, 97, 34], [58], [91], [49], [93], [125]]
      (.dict [] [97]) [91] [[49], [93], [125]] :=
    .member (.plain _ (by decide) (by decide)) (by decide)
  have helement : Place (.list [] : Value Empty) [[49], [93], [125]] (.list []) [49] [[93], [125]] :=
    .element (.plain _ (by decide) (by decide))
  have hword : IsWord [49] := ⟨by decide, by decide, by decide⟩
  have hbasic : parseBasic [49] = (.ok (.int 1) : Except Fault (Value Empty)) := by rfl
  have harray : Finishes (.list [.int 1] : Value Empty) [[93], [125]] [[125]] := .array _ _
  have hobject : Finishes (.dict [([97], .list [.int 1])] : Value Empty) [[125]] [] := .object _ _
  rcases (comesTo_container hmember .array (.word helement hword hbasic (.finishes harray))).mp hcomes
    with ⟨-, rfl⟩ | hinside | hbehind
  · obtain ⟨rfl, -⟩ := hafter.unique (.plain _ (by decide) (by decide))
    rfl
  · rcases (comesTo_word helement hword hbasic).mp hinside with ⟨htop, -⟩ | hend
    · cases htop
    · cases ((comesTo_finishes harray).mp hend).1
  · obtain ⟨-, rfl⟩ := (comesTo_finishes hobject).mp hbehind
    cases hafter with
    | plain _ hclosing _ => exact absurd rfl hclosing

/-- A bracket alone is an array. -/
theorem bracket_not_matched :
    ¬ ∀ (text : Bytes) (value : Value Empty), parse text = .ok value → value ≠ .null →
      ∀ used, Takes Empty text used → WellNested shape used := by
  intro h
  have hvalue : parse (bytes "[") = (.ok (.list []) : Except Fault (Value Empty)) := by rfl
  have htakes : Takes Empty (bytes "[") [[91]] := .mk rfl .array (.finishes (.tokens [])) rfl
  have hnested := h _ _ hvalue (fun h => by cases h) _ htakes
  revert hnested
  decide

end Sese.Json
