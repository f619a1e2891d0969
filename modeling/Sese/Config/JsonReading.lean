import Sese.Config.Json

/-!
# Reading a container

What the loop of `parse` does with the container on top of its stack, up to the token behind the
container: a relation that follows the tokens and has no stack (`Read`), and the words that the
loop comes to (`Reaches`).
-/
namespace Sese.Json

open Foundation

variable {δ : Type}

/-- The next token, or the one behind a comma; it is not taken for the end of the container. -/
inductive After (closing : UInt8) : Tokens → Bytes → Tokens → Prop
  | plain {token : Bytes} (tokens : Tokens) : token ≠ [closing] → token ≠ [44] →
    After closing (token :: tokens) token tokens
  | comma (token : Bytes) (tokens : Tokens) : After closing ([44] :: token :: tokens) token tokens

/-- The name of a member without its first and last octet. -/
def unquoted (name : Bytes) : Bytes := (name.drop 1).take (name.length - 2)

/-- The container takes a token for its next value, and is then waiting for that value. -/
inductive Place : Value δ → Tokens → Waiting δ → Bytes → Tokens → Prop
  | member {members : List (Bytes × Value δ)} {tokens tail : Tokens} {name token : Bytes} :
    After 125 tokens name ([58] :: token :: tail) → name ≠ [] →
    Place (.dict members) tokens (.dict members (unquoted name)) token tail
  | element {values : List (Value δ)} {tokens tail : Tokens} {token : Bytes} :
    After 93 tokens token tail → Place (.list values) tokens (.list values) token tail

/-- The value that goes on the stack above the container. -/
def Waiting.child : Waiting δ → Value δ → Value δ
  | .dict members name, empty => Value.setRef members name empty
  | .list _, empty => empty

inductive Opens : Bytes → Value δ → Prop
  | object : Opens [123] (.dict [])
  | array : Opens [91] (.list [])

structure IsWord (token : Bytes) : Prop where
  ne_object : token ≠ [123]
  ne_array : token ≠ [91]
  keyword : isKeyword token = false

theorem isKeyword_opens {token : Bytes} (h : isKeyword token) : token ≠ [123] ∧ token ≠ [91] := by
  constructor
  · rintro rfl
    cases h
  · rintro rfl
    cases h

theorem isWord_or_opens {token : Bytes} (h : isKeyword token = false) :
    IsWord token ∨ ∃ empty, Opens token (empty : Value δ) := by
  by_cases hobject : token = [123]
  · subst hobject
    exact .inr ⟨_, .object⟩
  by_cases harray : token = [91]
  · subst harray
    exact .inr ⟨_, .array⟩
  exact .inl ⟨hobject, harray, h⟩

/-- The container ends here. -/
inductive Finishes : Value δ → Tokens → Tokens → Prop
  | object (members : List (Bytes × Value δ)) (rest : Tokens) :
    Finishes (.dict members) ([125] :: rest) rest
  | array (values : List (Value δ)) (rest : Tokens) : Finishes (.list values) ([93] :: rest) rest
  | tokens (values : List (Value δ)) : Finishes (.list values) [] []

theorem After.length_lt {closing : UInt8} {tokens tail : Tokens} {token : Bytes}
    (h : After closing tokens token tail) : tail.length < tokens.length := by
  cases h <;> simp

theorem Place.length_lt {top : Value δ} {tokens tail : Tokens} {place : Waiting δ} {token : Bytes}
    (h : Place top tokens place token tail) : tail.length < tokens.length := by
  cases h with
  | member hafter _ =>
    have hlt := hafter.length_lt
    simp only [List.length_cons] at hlt
    omega
  | element hafter => exact hafter.length_lt

theorem After.suffix {closing : UInt8} {tokens tail : Tokens} {token : Bytes}
    (h : After closing tokens token tail) : token :: tail <:+ tokens := by
  cases h with
  | plain tokens _ _ => exact List.suffix_rfl
  | comma token tokens => exact List.suffix_cons _ _

theorem Place.suffix {top : Value δ} {tokens tail : Tokens} {place : Waiting δ} {token : Bytes}
    (h : Place top tokens place token tail) : tail <:+ tokens := by
  cases h with
  | @member _ _ _ name _ hafter _ =>
    have htail : tail <:+ name :: [58] :: token :: tail := ⟨[name, [58], token], rfl⟩
    exact htail.trans hafter.suffix
  | element hafter => exact (List.suffix_cons token tail).trans hafter.suffix

theorem After.unique {c : UInt8} {tokens tail tail' : Tokens} {token token' : Bytes}
    (h : After c tokens token tail) (h' : After c tokens token' tail') :
    token = token' ∧ tail = tail' := by
  cases h with
  | plain tail hclosing hcomma =>
    cases h' with
    | plain _ _ _ => exact ⟨rfl, rfl⟩
    | comma _ _ => exact absurd rfl hcomma
  | comma token tail =>
    cases h' with
    | plain _ _ hcomma => exact absurd rfl hcomma
    | comma _ _ => exact ⟨rfl, rfl⟩

theorem Place.unique {top : Value δ} {tokens tail tail' : Tokens} {place place' : Waiting δ}
    {token token' : Bytes} (h : Place top tokens place token tail)
    (h' : Place top tokens place' token' tail') : place = place' ∧ token = token' ∧ tail = tail' := by
  cases h with
  | member hafter hname =>
    cases h' with
    | member hafter' hname' =>
      obtain ⟨rfl, htail⟩ := hafter.unique hafter'
      cases htail
      exact ⟨rfl, rfl, rfl⟩
  | element hafter =>
    cases h' with
    | element hafter' =>
      obtain ⟨rfl, rfl⟩ := hafter.unique hafter'
      exact ⟨rfl, rfl, rfl⟩

theorem Opens.unique {token : Bytes} {empty empty' : Value δ} (h : Opens token empty)
    (h' : Opens token empty') : empty = empty' := by
  cases h <;> cases h' <;> rfl

theorem Opens.not_word {token : Bytes} {empty : Value δ} (h : Opens token empty) : ¬ IsWord token := by
  intro hword
  cases h with
  | object => exact hword.ne_object rfl
  | array => exact hword.ne_array rfl

theorem Place.not_finishes {top : Value δ} {tokens tail rest : Tokens} {place : Waiting δ}
    {token : Bytes} (h : Place top tokens place token tail) : ¬ Finishes top tokens rest := by
  intro hfinishes
  cases hfinishes with
  | object members rest =>
    cases h with
    | member hafter _ =>
      cases hafter with
      | plain _ hclosing _ => exact hclosing rfl
  | array values rest =>
    cases h with
    | element hafter =>
      cases hafter with
      | plain _ hclosing _ => exact hclosing rfl
  | tokens values =>
    cases h with
    | element hafter => cases hafter

/-- The tokens that are left are no more than `n`, and fewer when the loop goes further in. -/
def Called.Within (n : ℕ) : Called δ → Prop
  | .failed => True
  | .closed _ tokens => tokens.length ≤ n
  | .nested _ _ tokens => tokens.length < n

theorem Called.Within.mono {n m : ℕ} {called : Called δ} (h : called.Within n) (hle : n ≤ m) :
    called.Within m := by
  cases called with
  | failed => trivial
  | closed value tokens => exact Nat.le_trans h hle
  | nested parent child tokens => exact Nat.lt_of_lt_of_le h hle

variable [Double δ]

/-- The container becomes the value, and the rest of the tokens is left. -/
inductive Read : Value δ → Tokens → Value δ → Tokens → Prop
  | finishes {top : Value δ} {tokens rest : Tokens} : Finishes top tokens rest → Read top tokens top rest
  | word {top v value : Value δ} {tokens tail rest : Tokens} {place : Waiting δ} {token : Bytes} :
    Place top tokens place token tail → IsWord token → parseBasic token = .ok v →
    Read (place.resume v) tail value rest → Read top tokens value rest
  | container {top empty child value : Value δ} {tokens inside tail rest : Tokens}
    {place : Waiting δ} {token : Bytes} :
    Place top tokens place token inside → Opens token empty →
    Read (place.child empty) inside child tail → Read (place.resume child) tail value rest →
    Read top tokens value rest

/-- The parser comes to the word when it reads the container. -/
inductive Reaches : Value δ → Tokens → Bytes → Prop
  | here {top : Value δ} {tokens tail : Tokens} {place : Waiting δ} {token : Bytes} :
    Place top tokens place token tail → IsWord token → Reaches top tokens token
  | next {top v : Value δ} {tokens tail : Tokens} {place : Waiting δ} {token word : Bytes} :
    Place top tokens place token tail → IsWord token → parseBasic token = .ok v →
    Reaches (place.resume v) tail word → Reaches top tokens word
  | inside {top empty : Value δ} {tokens inside : Tokens} {place : Waiting δ} {token word : Bytes} :
    Place top tokens place token inside → Opens token empty →
    Reaches (place.child empty) inside word → Reaches top tokens word
  | behind {top empty child : Value δ} {tokens inside tail : Tokens} {place : Waiting δ}
    {token word : Bytes} :
    Place top tokens place token inside → Opens token empty →
    Read (place.child empty) inside child tail → Reaches (place.resume child) tail word →
    Reaches top tokens word

theorem Read.unique {top value value' : Value δ} {tokens rest rest' : Tokens}
    (h : Read top tokens value rest) (h' : Read top tokens value' rest') :
    value = value' ∧ rest = rest' := by
  induction h generalizing value' rest' with
  | finishes hfinishes =>
    cases h' with
    | finishes hfinishes' => cases hfinishes <;> cases hfinishes' <;> exact ⟨rfl, rfl⟩
    | word hplace _ _ _ => exact absurd hfinishes hplace.not_finishes
    | container hplace _ _ _ => exact absurd hfinishes hplace.not_finishes
  | word hplace hword hbasic _ ih =>
    cases h' with
    | finishes hfinishes' => exact absurd hfinishes' hplace.not_finishes
    | word hplace' _ hbasic' hread' =>
      obtain ⟨rfl, rfl, rfl⟩ := hplace.unique hplace'
      cases hbasic.symm.trans hbasic'
      exact ih hread'
    | container hplace' hopens' _ _ =>
      obtain ⟨rfl, rfl, rfl⟩ := hplace.unique hplace'
      exact absurd hword hopens'.not_word
  | container hplace hopens _ _ ihInside ihBehind =>
    cases h' with
    | finishes hfinishes' => exact absurd hfinishes' hplace.not_finishes
    | word hplace' hword' _ _ =>
      obtain ⟨rfl, rfl, rfl⟩ := hplace.unique hplace'
      exact absurd hword' hopens.not_word
    | container hplace' hopens' hinside' hbehind' =>
      obtain ⟨rfl, rfl, rfl⟩ := hplace.unique hplace'
      obtain rfl := hopens.unique hopens'
      obtain ⟨rfl, rfl⟩ := ihInside hinside'
      exact ihBehind hbehind'

theorem parseObject_after {tokens tail : Tokens} {name : Bytes} (h : After 125 tokens name tail)
    (members : List (Bytes × Value δ)) :
    parseObject false tokens members = parseObject true (name :: tail) members := by
  cases h with
  | plain tokens hclosing hcomma =>
    rw [parseObject.eq_def, parseObject.eq_def true]
    simp [hclosing, hcomma]
  | comma name tokens =>
    rw [parseObject.eq_def]
    rfl

theorem parseArray_after {tokens tail : Tokens} {token : Bytes} (h : After 93 tokens token tail)
    (values : List (Value δ)) :
    parseArray false tokens values = parseArray true (token :: tail) values := by
  cases h with
  | plain tokens hclosing hcomma =>
    rw [parseArray.eq_def, parseArray.eq_def true]
    simp [hclosing, hcomma]
  | comma token tokens =>
    rw [parseArray.eq_def]
    rfl

theorem substr_name {name : Bytes} (h : name ≠ []) :
    substr name 1 (name.length - 2) = .ok (unquoted name) := by
  rw [substr, if_pos (Nat.one_le_iff_ne_zero.mpr (mt List.length_eq_zero_iff.mp h))]
  rfl

theorem parseObject_named {name : Bytes} (hname : name ≠ []) (token : Bytes) (tail : Tokens)
    (members : List (Bytes × Value δ)) :
    parseObject true (name :: [58] :: token :: tail) members =
      if token = [123] then
        .ok (.nested (.dict members (unquoted name))
          (Value.setRef members (unquoted name) (.dict [])) tail)
      else if token = [91] then
        .ok (.nested (.dict members (unquoted name))
          (Value.setRef members (unquoted name) (.list [])) tail)
      else if isKeyword token then .ok .failed
      else (parseBasic token).bind fun value =>
        parseObject false tail (Value.set members (unquoted name) value) := by
  rw [parseObject.eq_def]
  simp only [Bool.true_eq_false, false_and, if_false, substr_name hname]
  rfl

theorem parseArray_token (token : Bytes) (tail : Tokens) (values : List (Value δ)) :
    parseArray true (token :: tail) values =
      if token = [123] then .ok (.nested (.list values) (.dict []) tail)
      else if token = [91] then .ok (.nested (.list values) (.list []) tail)
      else if isKeyword token then .ok .failed
      else (parseBasic token).bind fun value => parseArray false tail (values ++ [value]) := by
  rw [parseArray.eq_def]
  rfl

theorem parseTop_finishes {top : Value δ} {tokens rest : Tokens} (h : Finishes top tokens rest) :
    parseTop top tokens = .ok (.closed top rest) := by
  cases h with
  | object members rest =>
    exact parseObject_closing rest members
  | array values rest =>
    exact parseArray_closing rest values
  | tokens values => rfl

theorem parseTop_opens {top empty : Value δ} {tokens tail : Tokens} {place : Waiting δ}
    {token : Bytes} (h : Place top tokens place token tail) (hopens : Opens token empty) :
    parseTop top tokens = .ok (.nested place (place.child empty) tail) := by
  cases h with
  | member hafter hname =>
    rw [parseTop, parseObject_after hafter, parseObject_named hname]
    cases hopens <;> rfl
  | element hafter =>
    rw [parseTop, parseArray_after hafter, parseArray_token]
    cases hopens <;> rfl

theorem parseTop_word {top : Value δ} {tokens tail : Tokens} {place : Waiting δ} {token : Bytes}
    (h : Place top tokens place token tail) (hword : IsWord token) :
    parseTop top tokens = (parseBasic token).bind fun v => parseTop (place.resume v) tail := by
  obtain ⟨hobject, harray, hkeyword⟩ := hword
  cases h with
  | member hafter hname =>
    rw [parseTop, parseObject_after hafter, parseObject_named hname, if_neg hobject, if_neg harray, hkeyword]
    rfl
  | element hafter =>
    rw [parseTop, parseArray_after hafter, parseArray_token, if_neg hobject, if_neg harray, hkeyword]
    rfl

/-- The result is `false`, if no token is empty. -/
def Refuses (top : Value δ) (tokens : Tokens) : Prop :=
  parseTop top tokens = .ok .failed ∨ [] ∈ tokens ∧ parseTop top tokens = .error .terminate

theorem parseTop_member {tokens tail : Tokens} {name : Bytes} (h : After 125 tokens name tail)
    (members : List (Bytes × Value δ)) :
    (∃ place token tail, Place (.dict members) tokens place token tail ∧
      (IsWord token ∨ ∃ empty, Opens token (empty : Value δ))) ∨
    Refuses (.dict members) tokens := by
  rw [Refuses, parseTop, parseObject_after h]
  by_cases hname : name = []
  · subst hname
    refine .inr (.inr ⟨?_, by rw [parseObject.eq_def]; rfl⟩)
    cases h <;> simp
  cases tail with
  | nil =>
    right
    left
    rw [parseObject.eq_def]
    simp only [Bool.true_eq_false, false_and, if_false, substr_name hname]
    rfl
  | cons colon tail =>
    cases tail with
    | nil =>
      right
      left
      rw [parseObject.eq_def]
      simp only [Bool.true_eq_false, false_and, if_false, substr_name hname]
      rfl
    | cons token tail =>
      by_cases hcolon : colon = [58]
      · subst hcolon
        by_cases hkeyword : isKeyword token
        · obtain ⟨hobject, harray⟩ := isKeyword_opens hkeyword
          right
          left
          rw [parseObject_named hname, if_neg hobject, if_neg harray, if_pos hkeyword]
        · exact .inl ⟨_, token, tail, .member h hname, isWord_or_opens (by simpa using hkeyword)⟩
      · right
        left
        rw [parseObject.eq_def]
        simp only [Bool.true_eq_false, false_and, if_false, substr_name hname]
        exact if_pos hcolon

theorem parseTop_element {tokens tail : Tokens} {token : Bytes} (h : After 93 tokens token tail)
    (values : List (Value δ)) :
    (∃ place token tail, Place (.list values) tokens place token tail ∧
      (IsWord token ∨ ∃ empty, Opens token (empty : Value δ))) ∨
    Refuses (.list values) tokens := by
  by_cases hkeyword : isKeyword token
  · obtain ⟨hobject, harray⟩ := isKeyword_opens hkeyword
    right
    left
    rw [parseTop, parseArray_after h, parseArray_token, if_neg hobject, if_neg harray, if_pos hkeyword]
  · exact .inl ⟨_, token, tail, .element h, isWord_or_opens (by simpa using hkeyword)⟩

theorem parseTop_cases (top : Value δ) (tokens : Tokens) :
    (∃ rest, Finishes top tokens rest) ∨
    (∃ place token tail, Place top tokens place token tail ∧
      (IsWord token ∨ ∃ empty, Opens token (empty : Value δ))) ∨
    Refuses top tokens := by
  match top with
  | .dict members =>
    match tokens with
    | [] => exact .inr (.inr (.inl rfl))
    | token :: tokens =>
      by_cases hclosing : token = [125]
      · subst hclosing
        exact .inl ⟨tokens, .object members tokens⟩
      by_cases hcomma : token = [44]
      · subst hcomma
        match tokens with
        | [] => exact .inr (.inr (.inl (by rw [parseTop, parseObject.eq_def]; rfl)))
        | name :: tokens => exact .inr (parseTop_member (.comma name tokens) members)
      · exact .inr (parseTop_member (.plain tokens hclosing hcomma) members)
  | .list values =>
    match tokens with
    | [] => exact .inl ⟨[], .tokens values⟩
    | token :: tokens =>
      by_cases hclosing : token = [93]
      · subst hclosing
        exact .inl ⟨tokens, .array values tokens⟩
      by_cases hcomma : token = [44]
      · subst hcomma
        match tokens with
        | [] => exact .inr (.inr (.inl (by rw [parseTop, parseArray.eq_def]; rfl)))
        | token :: tokens => exact .inr (parseTop_element (.comma token tokens) values)
      · exact .inr (parseTop_element (.plain tokens hclosing hcomma) values)
  | .null | .bool _ | .int _ | .double _ | .string _ | .blob _ => exact .inr (.inr (.inl rfl))

/-- The loop when the container on top of the stack is finished. -/
def leave (fuel : ℕ) (value : Value δ) : List (Waiting δ) → Tokens → Except Fault (Value δ)
  | [], _ => .ok value
  | parent :: stack, rest => parseLoop fuel (parent.resume value) stack rest

def proceed (fuel : ℕ) (stack : List (Waiting δ)) : Called δ → Except Fault (Value δ)
  | .failed => .ok .null
  | .closed value tokens => leave fuel value stack tokens
  | .nested parent child tokens => parseLoop fuel child (parent :: stack) tokens

theorem parseLoop_succ (fuel : ℕ) (top : Value δ) (stack : List (Waiting δ)) (tokens : Tokens) :
    parseLoop (fuel + 1) top stack tokens = (parseTop top tokens).bind (proceed fuel stack) := by
  rw [parseLoop]
  cases parseTop top tokens with
  | error fault => rfl
  | ok called =>
    cases called with
    | failed => rfl
    | nested parent child tokens => rfl
    | closed value tokens => cases stack <;> rfl

/-- The loop reads what is inside, and is then where it was, with the container in its place. -/
theorem run_container {top empty child : Value δ} {tokens inside tail : Tokens} {place : Waiting δ}
    {token : Bytes} {n : ℕ} (hplace : Place top tokens place token inside)
    (hopens : Opens token empty)
    (hinside : ∀ fuel stack, (parseTop (place.child empty) inside).bind
      (proceed (fuel + n) stack) = leave fuel child stack tail)
    (fuel m : ℕ) (stack : List (Waiting δ)) :
    (parseTop top tokens).bind (proceed (fuel + (m + 1 + n + 1)) stack) =
      (parseTop (place.resume child) tail).bind (proceed (fuel + m) stack) := by
  have hfuel : fuel + (m + 1 + n + 1) = fuel + m + 1 + n + 1 := by omega
  rw [hfuel, parseTop_opens hplace hopens]
  calc
    parseLoop (fuel + m + 1 + n + 1) (place.child empty) (place :: stack) inside
        = leave (fuel + m + 1) child (place :: stack) tail := by rw [parseLoop_succ, hinside]
    _ = (parseTop (place.resume child) tail).bind (proceed (fuel + m) stack) :=
      parseLoop_succ _ _ _ _

theorem Read.run {top value : Value δ} {tokens rest : Tokens} (h : Read top tokens value rest) :
    ∃ n, ∀ fuel stack,
      (parseTop top tokens).bind (proceed (fuel + n) stack) = leave fuel value stack rest := by
  induction h with
  | finishes hfinishes =>
    refine ⟨0, fun fuel stack => ?_⟩
    rw [parseTop_finishes hfinishes]
    rfl
  | word hplace hword hbasic _ ih =>
    obtain ⟨n, hn⟩ := ih
    refine ⟨n, fun fuel stack => ?_⟩
    rw [parseTop_word hplace hword, hbasic]
    exact hn fuel stack
  | @container top empty child value tokens inside tail rest place token hplace hopens _ _ ihInside
      ihBehind =>
    obtain ⟨n, hn⟩ := ihInside
    obtain ⟨m, hm⟩ := ihBehind
    refine ⟨m + 1 + n + 1, fun fuel stack => ?_⟩
    rw [run_container hplace hopens hn]
    exact hm fuel stack

/-- What the conversion of a word throws is thrown by the loop. -/
theorem Reaches.run {top : Value δ} {tokens : Tokens} {word : Bytes} (h : Reaches top tokens word)
    {fault : Fault} (hfault : parseBasic word = (.error fault : Except Fault (Value δ))) :
    ∃ n, ∀ fuel stack,
      (parseTop top tokens).bind (proceed (fuel + n) stack) = .error fault := by
  induction h with
  | here hplace hword =>
    refine ⟨0, fun fuel stack => ?_⟩
    rw [parseTop_word hplace hword, hfault]
    rfl
  | next hplace hword hbasic _ ih =>
    obtain ⟨n, hn⟩ := ih hfault
    refine ⟨n, fun fuel stack => ?_⟩
    rw [parseTop_word hplace hword, hbasic]
    exact hn fuel stack
  | @inside top empty tokens inside place token word hplace hopens _ ih =>
    obtain ⟨n, hn⟩ := ih hfault
    refine ⟨n + 1, fun fuel stack => ?_⟩
    rw [parseTop_opens hplace hopens]
    exact (parseLoop_succ _ _ _ _).trans (hn fuel (place :: stack))
  | @behind top empty child tokens inside tail place token word hplace hopens hread _ ih =>
    obtain ⟨n, hn⟩ := hread.run
    obtain ⟨m, hm⟩ := ih hfault
    refine ⟨m + 1 + n + 1, fun fuel stack => ?_⟩
    rw [run_container hplace hopens hn]
    exact hm fuel stack

/-- Both functions return `false` before the container is finished. -/
def Fails (top : Value δ) (tokens : Tokens) : Prop :=
  ∃ n, ∀ fuel stack, (parseTop top tokens).bind (proceed (fuel + n) stack) = .ok .null

theorem Read.suffix {top value : Value δ} {tokens rest : Tokens}
    (h : Read top tokens value rest) : rest <:+ tokens := by
  induction h with
  | finishes hfinishes =>
    cases hfinishes with
    | object members rest => exact List.suffix_cons _ _
    | array values rest => exact List.suffix_cons _ _
    | tokens values => exact List.suffix_rfl
  | word hplace _ _ _ ih => exact ih.trans hplace.suffix
  | container hplace _ _ _ ihInside ihBehind => exact (ihBehind.trans ihInside).trans hplace.suffix

/-- The container is read, or a conversion throws, or the result is `null`. -/
theorem read_or_throws_or_fails (top : Value δ) {tokens : Tokens} (hne : [] ∉ tokens) :
    (∃ value rest, Read top tokens value rest) ∨
    (∃ word fault, Reaches top tokens word ∧
      parseBasic word = (.error fault : Except Fault (Value δ))) ∨
    Fails top tokens := by
  rcases parseTop_cases top tokens with
    ⟨rest, hfinishes⟩ | ⟨place, token, tail, hplace, hkind⟩ | hfailed | ⟨hmem, -⟩
  · exact .inl ⟨top, rest, .finishes hfinishes⟩
  · have hlt := hplace.length_lt
    have htail : [] ∉ tail := fun hmem => hne (hplace.suffix.subset hmem)
    rcases hkind with hword | ⟨empty, hopens⟩
    · cases hbasic : (parseBasic token : Except Fault (Value δ)) with
      | error fault => exact .inr (.inl ⟨token, fault, .here hplace hword, hbasic⟩)
      | ok v =>
        rcases read_or_throws_or_fails (place.resume v) htail with
          ⟨value, rest, hread⟩ | ⟨word, fault, hreaches, hfault⟩ | ⟨n, hn⟩
        · exact .inl ⟨value, rest, .word hplace hword hbasic hread⟩
        · exact .inr (.inl ⟨word, fault, .next hplace hword hbasic hreaches, hfault⟩)
        · refine .inr (.inr ⟨n, fun fuel stack => ?_⟩)
          rw [parseTop_word hplace hword, hbasic]
          exact hn fuel stack
    · rcases read_or_throws_or_fails (place.child empty) htail with
        ⟨child, behind, hread⟩ | ⟨word, fault, hreaches, hfault⟩ | ⟨n, hn⟩
      · have hle := hread.suffix.length_le
        have hbehind : [] ∉ behind := fun hmem => htail (hread.suffix.subset hmem)
        rcases read_or_throws_or_fails (place.resume child) hbehind with
          ⟨value, rest, hbehind⟩ | ⟨word, fault, hreaches, hfault⟩ | ⟨m, hm⟩
        · exact .inl ⟨value, rest, .container hplace hopens hread hbehind⟩
        · exact .inr (.inl ⟨word, fault, .behind hplace hopens hread hreaches, hfault⟩)
        · obtain ⟨n, hn⟩ := hread.run
          refine .inr (.inr ⟨m + 1 + n + 1, fun fuel stack => ?_⟩)
          rw [run_container hplace hopens hn]
          exact hm fuel stack
      · exact .inr (.inl ⟨word, fault, .inside hplace hopens hreaches, hfault⟩)
      · refine .inr (.inr ⟨n + 1, fun fuel stack => ?_⟩)
        rw [parseTop_opens hplace hopens]
        exact (parseLoop_succ _ _ _ _).trans (hn fuel (place :: stack))
  · refine .inr (.inr ⟨0, fun fuel stack => ?_⟩)
    rw [hfailed]
    rfl
  · exact absurd hmem hne
termination_by tokens.length

theorem parseTop_within (top : Value δ) (tokens : Tokens) {called : Called δ}
    (h : parseTop top tokens = .ok called) : called.Within tokens.length := by
  rcases parseTop_cases top tokens with
    ⟨rest, hfinishes⟩ | ⟨place, token, tail, hplace, hkind⟩ | hfailed | ⟨-, hthrows⟩
  · rw [parseTop_finishes hfinishes] at h
    cases h
    cases hfinishes <;> simp [Called.Within]
  · have hlt := hplace.length_lt
    rcases hkind with hword | ⟨empty, hopens⟩
    · rw [parseTop_word hplace hword] at h
      cases hbasic : (parseBasic token : Except Fault (Value δ)) with
      | error fault =>
        rw [hbasic] at h
        cases h
      | ok v =>
        rw [hbasic] at h
        exact (parseTop_within (place.resume v) tail h).mono hlt.le
    · rw [parseTop_opens hplace hopens] at h
      cases h
      exact hlt
  · rw [hfailed] at h
    cases h
    trivial
  · rw [hthrows] at h
    cases h
termination_by tokens.length

/-- More rounds than two for every token and one for every container do not change the result. -/
theorem parseLoop_fuel {fuel : ℕ} {top : Value δ} {stack : List (Waiting δ)} {tokens : Tokens}
    (h : 2 * tokens.length + stack.length + 1 ≤ fuel) (more : ℕ) :
    parseLoop (fuel + more) top stack tokens = parseLoop fuel top stack tokens := by
  induction fuel generalizing top stack tokens with
  | zero => omega
  | succ fuel ih =>
    rw [Nat.add_right_comm, parseLoop_succ, parseLoop_succ]
    cases hcalled : parseTop top tokens with
    | error fault => rfl
    | ok called =>
      have hwithin := parseTop_within top tokens hcalled
      cases called with
      | failed => rfl
      | closed value tail =>
        cases stack with
        | nil => rfl
        | cons parent stack =>
          simp only [Called.Within] at hwithin
          simp only [List.length_cons] at h
          exact ih (by omega)
      | nested parent child tail =>
        simp only [Called.Within] at hwithin
        exact ih (by simp only [List.length_cons]; omega)

theorem parseTokens_opens {front : Bytes} {empty : Value δ} (h : Opens front empty)
    (tokens : Tokens) (more : ℕ) :
    parseTokens (front :: tokens) =
      (parseTop empty tokens).bind (proceed (2 * tokens.length + 1 + more) []) := by
  calc
    parseTokens (front :: tokens) = parseLoop (2 * tokens.length + 2) empty [] tokens := by
      cases h <;> rfl
    _ = parseLoop (2 * tokens.length + 2 + more) empty [] tokens :=
      (parseLoop_fuel (by simp) more).symm
    _ = (parseTop empty tokens).bind (proceed (2 * tokens.length + 1 + more) []) := by
      rw [show 2 * tokens.length + 2 + more = 2 * tokens.length + 1 + more + 1 by omega,
        parseLoop_succ]

/-- The tokens of a text open a container and go on until it is read. -/
inductive ReadsRoot : Tokens → Value δ → Prop
  | mk {front : Bytes} {empty value : Value δ} {tokens rest : Tokens} : Opens front empty →
    Read empty tokens value rest → ReadsRoot (front :: tokens) value

inductive ReachesRoot (δ : Type) [Double δ] : Tokens → Bytes → Prop
  | mk {front word : Bytes} {empty : Value δ} {tokens : Tokens} : Opens front empty →
    Reaches empty tokens word → ReachesRoot δ (front :: tokens) word

theorem ReadsRoot.parseTokens_eq {tokens : Tokens} {value : Value δ} (h : ReadsRoot tokens value) :
    parseTokens tokens = .ok value := by
  obtain ⟨hopens, hread⟩ := h
  obtain ⟨n, hn⟩ := hread.run
  rw [parseTokens_opens hopens _ n, hn]
  rfl

theorem ReachesRoot.parseTokens_eq {tokens : Tokens} {word : Bytes} (h : ReachesRoot δ tokens word)
    {fault : Fault} (hfault : parseBasic word = (.error fault : Except Fault (Value δ))) :
    parseTokens tokens = (.error fault : Except Fault (Value δ)) := by
  obtain ⟨hopens, hreaches⟩ := h
  obtain ⟨n, hn⟩ := hreaches.run hfault
  rw [parseTokens_opens hopens _ n, hn]

theorem parseTokens_cases {front : Bytes} {tokens : Tokens} (hne : [] ∉ front :: tokens) :
    (∃ value : Value δ, ReadsRoot (front :: tokens) value) ∨
    (∃ word fault, ReachesRoot δ (front :: tokens) word ∧
      parseBasic word = (.error fault : Except Fault (Value δ))) ∨
    parseTokens (front :: tokens) = (.ok .null : Except Fault (Value δ)) := by
  have htokens : [] ∉ tokens := fun hmem => hne (List.mem_cons_of_mem _ hmem)
  have hroot {empty : Value δ} (hopens : Opens front empty) :
      (∃ value : Value δ, ReadsRoot (front :: tokens) value) ∨
      (∃ word fault, ReachesRoot δ (front :: tokens) word ∧
        parseBasic word = (.error fault : Except Fault (Value δ))) ∨
      parseTokens (front :: tokens) = (.ok .null : Except Fault (Value δ)) := by
    rcases read_or_throws_or_fails empty htokens with
      ⟨value, rest, hread⟩ | ⟨word, fault, hreaches, hfault⟩ | ⟨n, hn⟩
    · exact .inl ⟨value, .mk hopens hread⟩
    · exact .inr (.inl ⟨word, fault, .mk hopens hreaches, hfault⟩)
    · exact .inr (.inr ((parseTokens_opens hopens tokens n).trans (hn _ [])))
  by_cases hobject : front = [123]
  · subst hobject
    exact hroot .object
  by_cases harray : front = [91]
  · subst harray
    exact hroot .array
  right
  right
  rw [parseTokens, if_neg hobject, if_neg harray]

def Scanning.Started : Scanning → Prop
  | .between => True
  | .string builder => builder ≠ []
  | .word builder => builder ≠ []

theorem tokenizer_ne_nil {scanning : Scanning} {input : Bytes} {tokens : Tokens}
    (hstarted : scanning.Started) (h : tokenizer scanning input = some tokens) : [] ∉ tokens := by
  have happend (builder : Bytes) (b : UInt8) : builder ++ [b] ≠ [] := by simp
  fun_induction tokenizer scanning input generalizing tokens with
  | case1 =>
    cases h
    exact List.not_mem_nil
  | case2 ch input hch ih =>
    obtain ⟨rest, hrest, rfl⟩ := Option.map_eq_some_iff.mp h
    simpa using ih trivial hrest
  | case3 input hch ih => exact ih (List.cons_ne_nil _ _) h
  | case4 ch input hch hquote hspace ih => exact ih trivial h
  | case5 ch input hch hquote hspace ih => exact ih (List.cons_ne_nil _ _) h
  | case6 => cases h
  | case7 builder ch input ih => exact ih (by simp [Scanning.Started]) h
  | case8 builder input hslash ih =>
    obtain ⟨rest, hrest, rfl⟩ := Option.map_eq_some_iff.mp h
    simpa using ih trivial hrest
  | case9 builder ch input hslash hquote ih => exact ih (happend builder ch) h
  | case10 builder ch input hkeyword ih =>
    obtain ⟨rest, hrest, rfl⟩ := Option.map_eq_some_iff.mp h
    have hbuilder : builder ≠ [] := hstarted
    simpa using ⟨hbuilder, ih trivial hrest⟩
  | case11 builder ch input hkeyword hspace ih =>
    obtain ⟨rest, hrest, rfl⟩ := Option.map_eq_some_iff.mp h
    have hbuilder : builder ≠ [] := hstarted
    simpa using ⟨hbuilder, ih trivial hrest⟩
  | case12 builder ch input hkeyword hspace ih => exact ih (happend builder ch) h

end Sese.Json
