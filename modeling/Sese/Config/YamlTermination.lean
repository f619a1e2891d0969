import Sese.Config.Yaml

/-!
# When the YAML parser comes to an end

The rounds of `parseObject` and `parseArray` as one loop over the states of the parser. Each round
makes the state smaller unless the line in front is one that the container on top has no branch
for.
-/
namespace Sese.Yaml

open Foundation
open Json (Tokens Waiting)

/-- The lines of a text, without the empty ones. -/
def textLines : Bytes → Bytes → List Bytes
  | builder, [] => if builder = [] then [] else [builder]
  | builder, ch :: input =>
    if ch = 13 ∨ ch = 10 then
      if builder = [] then textLines [] input else builder :: textLines [] input
    else textLines (builder ++ [ch]) input

def spaces (line : Bytes) : ℕ := (line.takeWhile fun ch => ch = 32).length

/-- The tokens of the lines up to the first one that is made of spaces. -/
def queueOf : List Bytes → List Line
  | [] => []
  | line :: lines =>
    if line.drop (spaces line) = [] then []
    else (spaces line, tokenizer .between (line.drop (spaces line))) :: queueOf lines

def Indented : List Bytes → Prop
  | [] => True
  | line :: lines => spaces line < 2 ^ 31 ∧ (line.drop (spaces line) ≠ [] → Indented lines)

theorem getLineLoop_cases (builder input : Bytes) :
    (getLineLoop builder input).1 = [] ∧ textLines builder input = [] ∨
    (getLineLoop builder input).1 ≠ [] ∧ textLines builder input =
      (getLineLoop builder input).1 :: textLines [] (getLineLoop builder input).2 := by
  fun_induction getLineLoop builder input with
  | case1 builder =>
    by_cases hnil : builder = []
    · exact .inl ⟨hnil, by rw [textLines, if_pos hnil]⟩
    · exact .inr ⟨hnil, by simp [textLines, hnil]⟩
  | case2 ch input hend ih =>
    rw [textLines, if_pos hend, if_pos rfl]
    exact ih
  | case3 builder ch input hend hnil =>
    refine .inr ⟨hnil, ?_⟩
    rw [textLines, if_pos hend, if_neg hnil]
  | case4 builder ch input hend ih =>
    rw [textLines, if_neg hend]
    exact ih

theorem readRound_eq (acc : List Line) (input line rest : Bytes)
    (h : getLineLoop [] input = (line, rest)) :
    readRound (acc, input) =
      if spaces line < 2 ^ 31 then
        if line.drop (spaces line) = [] then .ok (.inr acc)
        else .ok (.inl (acc ++ [(spaces line, tokenizer .between (line.drop (spaces line)))], rest))
      else .error .intOverflow := by
  have hcount : getSpaceCount line =
      if spaces line < 2 ^ 31 then .ok (spaces line) else .error .intOverflow := rfl
  rw [readRound, getLine, h]
  dsimp only
  rw [hcount]
  by_cases hspaces : spaces line < 2 ^ 31
  · rw [if_pos hspaces, if_pos hspaces]
    rfl
  · rw [if_neg hspaces, if_neg hspaces]
    rfl

theorem delivers_readRound (acc : List Line) (input : Bytes) (lines : List Line) :
    Delivers readRound (acc, input) lines ↔
      Indented (textLines [] input) ∧ lines = acc ++ queueOf (textLines [] input) := by
  induction htext : textLines [] input generalizing acc input with
  | nil =>
    have hline : getLineLoop [] input = ([], (getLineLoop [] input).2) := by
      rcases getLineLoop_cases [] input with ⟨hnil, -⟩ | ⟨-, hcons⟩
      · exact Prod.ext hnil rfl
      · cases htext.symm.trans hcons
    have hround : readRound (acc, input) = .ok (.inr acc) := readRound_eq acc input [] _ hline
    have hdone : Delivers readRound (acc, input) acc := .done hround
    rw [queueOf, List.append_nil]
    constructor
    · intro h
      exact ⟨trivial, h.unique hdone⟩
    · rintro ⟨-, rfl⟩
      exact hdone
  | cons line texts ih =>
    obtain ⟨rest, hline, hrest⟩ : ∃ rest, getLineLoop [] input = (line, rest) ∧
        textLines [] rest = texts := by
      rcases getLineLoop_cases [] input with ⟨-, hnil⟩ | ⟨-, hcons⟩
      · cases htext.symm.trans hnil
      · obtain ⟨hfirst, hothers⟩ := List.cons_eq_cons.mp (htext.symm.trans hcons)
        exact ⟨(getLineLoop [] input).2, by rw [hfirst], hothers.symm⟩
    have hround := readRound_eq acc input line rest hline
    by_cases hspaces : spaces line < 2 ^ 31
    · rw [if_pos hspaces] at hround
      by_cases hblank : line.drop (spaces line) = []
      · rw [if_pos hblank] at hround
        have hdone : Delivers readRound (acc, input) acc := .done hround
        rw [queueOf, if_pos hblank, List.append_nil]
        constructor
        · intro h
          exact ⟨⟨hspaces, fun hne => absurd hblank hne⟩, h.unique hdone⟩
        · rintro ⟨-, rfl⟩
          exact hdone
      · rw [if_neg hblank] at hround
        rw [(Visits.step hround).delivers, ih _ rest hrest, queueOf, if_neg hblank, List.append_assoc]
        constructor
        · rintro ⟨hothers, heq⟩
          exact ⟨⟨hspaces, fun _ => hothers⟩, heq⟩
        · rintro ⟨⟨-, hothers⟩, heq⟩
          exact ⟨hothers hblank, heq⟩
    · rw [if_neg hspaces] at hround
      constructor
      · intro h
        cases h with
        | done hdone => cases hround.symm.trans hdone
        | more hmore _ => cases hround.symm.trans hmore
      · rintro ⟨⟨hlt, -⟩, -⟩
        exact absurd hlt hspaces

variable {δ : Type}

/-- What is left of an element of a list begins a container. -/
def Nests : Tokens → Prop
  | first :: second :: others => others.length ≤ 1 ∧ second = [58] ∨ first = [45]
  | _ => False

/-- The line in front is one that the container on top has a branch for: in a dictionary a line of
its own has three tokens, or two and no line without tokens deeper behind it; in a list a line that
is not left of it has a token, and room for two more spaces when it is a container. -/
def Fits (s : State δ) : Prop :=
  match s.top, s.lines with
  | .dict _, line :: lines =>
    s.count.getD line.1 = line.1 → line.2.length = 3 ∨
      line.2.length = 2 ∧ ∀ next ∈ lines.head?, line.1 < next.1 → next.2 ≠ []
  | .list _, line :: _ =>
    s.count.getD line.1 ≤ line.1 → line.2 ≠ [] ∧
      (s.count.getD line.1 = line.1 → Nests line.2.tail → line.1 + 2 < 2 ^ 31)
  | _, _ => True

def weight (lines : List Line) : ℕ := (lines.map fun line => line.2.length + 1).sum

@[simp] theorem weight_nil : weight [] = 0 := rfl

@[simp] theorem weight_cons (line : Line) (lines : List Line) :
    weight (line :: lines) = line.2.length + 1 + weight lines := by
  rw [weight, List.map_cons, List.sum_cons]
  rfl

/-- A container on the stack counts less than the line that has brought it there. -/
def size (s : State δ) : ℕ := 2 * weight s.lines + s.stack.length

def Progress (s : State δ) : Turn δ → Prop
  | .inl s' => size s' < size s
  | .inr (.inl s') => size s' < size s
  | .inr (.inr _) => True

theorem Progress.flatten [Strtod δ] {s : State δ} {t : Turn δ} (h : Progress s t) (hturn : turn s = .ok t) :
    (∃ a, flatten turn s = .ok (.inr a)) ∨ ∃ s', flatten turn s = .ok (.inl s') ∧ size s' < size s := by
  rcases t with s' | s' | a
  · exact .inr ⟨s', flatten_again hturn, h⟩
  · exact .inr ⟨s', flatten_left hturn, h⟩
  · exact .inl ⟨a, flatten_left hturn⟩

theorem progress_leave {s : State δ} {lines : List Line} (h : weight lines ≤ weight s.lines)
    (top : Value δ) : Progress s (s.leave top lines) := by
  rw [State.leave]
  cases hstack : s.stack with
  | nil => trivial
  | cons below stack =>
    change 2 * weight lines + stack.length < 2 * weight s.lines + s.stack.length
    rw [hstack, List.length_cons]
    omega

theorem progress_enter {s : State δ} {lines : List Line} (h : weight lines < weight s.lines)
    (count : ℕ) (parent : Waiting δ) (child : Value δ) :
    Progress s (s.enter count parent child lines) := by
  change 2 * weight lines + (s.stack.length + 1) < 2 * weight s.lines + s.stack.length
  omega

theorem progress_again {s : State δ} {lines : List Line} (h : weight lines < weight s.lines)
    (count : ℕ) (top : Value δ) : Progress s (s.again count top lines) := by
  change 2 * weight lines + s.stack.length < 2 * weight s.lines + s.stack.length
  omega

theorem parseKey_progress {s : State δ} {count : ℕ} {lines : List Line}
    (hnext : ∀ next ∈ lines.head?, count < next.1 → next.2 ≠ [])
    (hweight : weight lines < weight s.lines) (members : List (Bytes × Value δ)) (key : Bytes) :
    ∃ t, parseKey s count members key lines = .ok t ∧ Progress s t := by
  cases lines with
  | nil => exact ⟨_, rfl, progress_again hweight count _⟩
  | cons next lines =>
    obtain ⟨indent, tokens⟩ := next
    rw [parseKey.eq_def]
    dsimp only
    by_cases heq : indent = count
    · exact ⟨_, if_pos heq, progress_again hweight count _⟩
    · rw [if_neg heq]
      by_cases hlt : indent < count
      · exact ⟨_, if_pos hlt, progress_leave hweight.le _⟩
      · have hne := hnext (indent, tokens) rfl (by dsimp only; omega)
        obtain ⟨first, others, rfl⟩ := List.exists_cons_of_ne_nil hne
        exact ⟨_, if_neg hlt, progress_enter hweight count _ _⟩

variable [Strtod δ]

theorem parseObject_other {s : State δ} {count : ℕ} {line : Line} {lines : List Line}
    (hs : s.lines = line :: lines) (hcount : count ≠ line.1) (members : List (Bytes × Value δ)) :
    ∃ t, parseObject s count members line lines = .ok t ∧ Progress s t := by
  have hweight : weight lines < weight s.lines := by
    rw [hs, weight_cons]
    omega
  rw [parseObject, if_neg hcount]
  by_cases hlt : line.1 < count
  · exact ⟨_, if_pos hlt, progress_leave (by rw [hs]) _⟩
  · exact ⟨_, if_neg hlt, progress_again hweight count _⟩

theorem parseObject_progress {s : State δ} {line : Line} {lines : List Line}
    (hs : s.lines = line :: lines)
    (hfits : line.2.length = 3 ∨
      line.2.length = 2 ∧ ∀ next ∈ lines.head?, line.1 < next.1 → next.2 ≠ [])
    (members : List (Bytes × Value δ)) :
    ∃ t, parseObject s line.1 members line lines = .ok t ∧ Progress s t := by
  have hweight : weight lines < weight s.lines := by
    rw [hs, weight_cons]
    omega
  rw [parseObject, if_pos rfl]
  obtain ⟨indent, tokens⟩ := line
  match tokens, hfits with
  | [key, _], .inr ⟨_, hnext⟩ => exact parseKey_progress hnext hweight members key
  | [key, colon, value], _ =>
    by_cases hcolon : colon ≠ [58]
    · exact ⟨failed, if_pos hcolon, trivial⟩
    · exact ⟨_, if_neg hcolon, progress_again hweight indent _⟩

/-- A line of its own that a dictionary has no branch for stays where it is, for ever; and a line
without tokens has no first one. -/
theorem parseObject_stuck {line : Line} {lines : List Line} (h : ¬ (line.2.length = 3 ∨
      line.2.length = 2 ∧ ∀ next ∈ lines.head?, line.1 < next.1 → next.2 ≠ []))
    (members : List (Bytes × Value δ)) :
    (∀ s, parseObject s line.1 members line lines = .error .overread) ∨
      ∀ s, parseObject s line.1 members line lines =
        .ok (s.again line.1 (.dict members) (line :: lines)) := by
  obtain ⟨indent, tokens⟩ := line
  match tokens with
  | [] => exact .inr fun s => if_pos rfl
  | [_] => exact .inr fun s => if_pos rfl
  | [key, _] =>
    refine .inl fun s => ?_
    rw [parseObject, if_pos rfl]
    cases lines with
    | nil => exact absurd (.inr ⟨rfl, fun next hnext => by cases hnext⟩) h
    | cons next lines =>
      obtain ⟨deeper, tokens⟩ := next
      have hnot : indent < deeper ∧ tokens = [] := by
        by_contra hor
        apply h
        refine .inr ⟨rfl, fun next hnext hlt => ?_⟩
        obtain rfl := Option.some.inj hnext
        exact fun hnil => hor ⟨hlt, hnil⟩
      obtain ⟨hlt, rfl⟩ := hnot
      change parseKey s indent members key ((deeper, []) :: lines) = _
      rw [parseKey.eq_def]
      dsimp only
      rw [if_neg (by omega), if_neg (by omega)]
  | [_, _, _] => exact absurd (.inl rfl) h
  | _ :: _ :: _ :: _ :: _ => exact .inr fun s => if_pos rfl

theorem parseElement_progress {s : State δ} {line : Line} {lines : List Line} {count : ℕ}
    {first : Bytes} {tokens : Tokens} (hs : s.lines = line :: lines) (hline : line.2 = first :: tokens)
    (hroom : Nests tokens → count + 2 < 2 ^ 31) (values : List (Value δ)) :
    ∃ t, parseElement s count values tokens lines = .ok t ∧ Progress s t := by
  have hweight : weight lines < weight s.lines := by
    rw [hs, weight_cons]
    omega
  match tokens with
  | [] => exact ⟨_, rfl, progress_again hweight count _⟩
  | [value] => exact ⟨_, rfl, progress_again hweight count _⟩
  | first :: second :: others =>
    have hless : weight ((count + 2, first :: second :: others) :: lines) < weight s.lines := by
      rw [hs, weight_cons, weight_cons, hline]
      simp only [List.length_cons]
      omega
    rw [parseElement]
    by_cases hdict : others.length ≤ 1 ∧ second = [58]
    · rw [if_pos hdict, State.nest, if_pos (hroom (.inl hdict))]
      exact ⟨_, rfl, progress_enter hless count _ _⟩
    · by_cases hlist : first = [45]
      · rw [if_neg hdict, if_pos hlist, State.nest, if_pos (hroom (.inr hlist))]
        exact ⟨_, rfl, progress_enter hless count _ _⟩
      · refine ⟨failed, ?_, trivial⟩
        rw [if_neg hdict, if_neg hlist]

theorem parseArray_progress {s : State δ} {line : Line} {lines : List Line} {count : ℕ}
    (hs : s.lines = line :: lines)
    (hfits : count ≤ line.1 → line.2 ≠ [] ∧ (count = line.1 → Nests line.2.tail → line.1 + 2 < 2 ^ 31))
    (values : List (Value δ)) :
    ∃ t, parseArray s count values line lines = .ok t ∧ Progress s t := by
  rw [parseArray]
  by_cases hlt : line.1 < count
  · exact ⟨_, if_pos hlt, progress_leave (by rw [hs]) _⟩
  · obtain ⟨hne, hroom⟩ := hfits (not_lt.mp hlt)
    obtain ⟨first, tokens, htokens⟩ := List.exists_cons_of_ne_nil hne
    rw [if_neg hlt, htokens]
    dsimp only
    by_cases heq : count = line.1
    · rw [if_pos heq]
      apply parseElement_progress hs htokens
      intro hnests
      rw [heq]
      apply hroom heq
      rw [htokens]
      exact hnests
    · refine ⟨_, if_neg heq, progress_again ?_ count _⟩
      rw [hs, weight_cons]
      omega

theorem parseArray_stuck {s : State δ} {line : Line} {lines : List Line} {count : ℕ}
    (h : ¬ (count ≤ line.1 →
      line.2 ≠ [] ∧ (count = line.1 → Nests line.2.tail → line.1 + 2 < 2 ^ 31)))
    (values : List (Value δ)) : ∃ e, parseArray s count values line lines = .error e := by
  obtain ⟨hle, hnot⟩ := Classical.not_imp.mp h
  rw [parseArray, if_neg (not_lt.mpr hle)]
  match htokens : line.2 with
  | [] => exact ⟨_, rfl⟩
  | _ :: tokens =>
    rw [htokens] at hnot
    have hwide : count = line.1 ∧ Nests tokens ∧ ¬ line.1 + 2 < 2 ^ 31 := by
      by_contra hor
      apply hnot
      refine ⟨List.cons_ne_nil _ _, fun heq hnests => ?_⟩
      by_contra hlt
      exact hor ⟨heq, hnests, hlt⟩
    obtain ⟨rfl, hnests, hwide⟩ := hwide
    refine ⟨.intOverflow, ?_⟩
    dsimp only
    rw [if_pos rfl]
    match tokens, hnests with
    | first :: second :: others, hnests =>
      rw [parseElement]
      by_cases hdict : others.length ≤ 1 ∧ second = [58]
      · rw [if_pos hdict, State.nest, if_neg hwide]
      · rw [if_neg hdict, if_pos (hnests.resolve_left hdict), State.nest, if_neg hwide]

theorem turn_progress {s : State δ} (h : Fits s) : ∃ t, turn s = .ok t ∧ Progress s t := by
  obtain ⟨top, count, stack, lines⟩ := s
  match top, lines with
  | .dict members, [] => exact ⟨_, rfl, progress_leave le_rfl _⟩
  | .dict members, line :: lines =>
    by_cases hcount : count.getD line.1 = line.1
    · change ∃ t, parseObject _ (count.getD line.1) members line lines = .ok t ∧ _
      rw [hcount]
      exact parseObject_progress rfl (h hcount) members
    · exact parseObject_other rfl hcount members
  | .list values, [] => exact ⟨_, rfl, progress_leave le_rfl _⟩
  | .list values, line :: lines => exact parseArray_progress rfl h values
  | .null, _ => exact ⟨failed, rfl, trivial⟩
  | .bool _, _ => exact ⟨failed, rfl, trivial⟩
  | .int _, _ => exact ⟨failed, rfl, trivial⟩
  | .double _, _ => exact ⟨failed, rfl, trivial⟩
  | .string _, _ => exact ⟨failed, rfl, trivial⟩
  | .blob _, _ => exact ⟨failed, rfl, trivial⟩

theorem turn_stuck {s : State δ} (h : ¬ Fits s) :
    (∃ e, turn s = .error e) ∨ ∃ s', turn s = .ok (.inl s') ∧ turn s' = .ok (.inl s') := by
  obtain ⟨top, count, stack, lines⟩ := s
  match top, lines with
  | .dict members, line :: lines =>
    obtain ⟨hcount, hnot⟩ := Classical.not_imp.mp h
    have hfirst : turn ⟨.dict members, count, stack, line :: lines⟩ =
        parseObject ⟨.dict members, count, stack, line :: lines⟩ line.1 members line lines :=
      congrArg (fun n => parseObject ⟨.dict members, count, stack, line :: lines⟩ n members line lines)
        hcount
    rcases parseObject_stuck hnot members with herror | hstay
    · exact .inl ⟨_, hfirst.trans (herror _)⟩
    · exact .inr ⟨⟨.dict members, some line.1, stack, line :: lines⟩, hfirst.trans (hstay _), hstay _⟩
  | .list values, line :: lines => exact .inl (parseArray_stuck h values)
  | .dict _, [] => exact absurd trivial h
  | .list _, [] => exact absurd trivial h
  | .null, _ => exact absurd trivial h
  | .bool _, _ => exact absurd trivial h
  | .int _, _ => exact absurd trivial h
  | .double _, _ => exact absurd trivial h
  | .string _, _ => exact absurd trivial h
  | .blob _, _ => exact absurd trivial h

theorem flatten_stuck {s : State δ} (h : ¬ Fits s) : (∃ e, flatten turn s = .error e) ∨
    ∃ s', flatten turn s = .ok (.inl s') ∧ flatten turn s' = .ok (.inl s') := by
  rcases turn_stuck h with ⟨e, herror⟩ | ⟨s', hturn, hstay⟩
  · exact .inl ⟨e, by rw [flatten, herror]⟩
  · exact .inr ⟨s', flatten_again hturn, flatten_again hstay⟩

/-- The loops of the parser come to an end exactly when the line in front always fits. -/
theorem exists_delivers_turn_iff (s : State δ) :
    (∃ value, Delivers (flatten turn) s value) ↔ ∀ s', Visits (flatten turn) s s' → Fits s' := by
  apply exists_delivers_iff size
  · intro s h
    obtain ⟨t, hturn, hprogress⟩ := turn_progress h
    exact hprogress.flatten hturn
  · intro s h
    exact flatten_stuck h

/-- What `parse` returns, in terms of the one loop. -/
theorem parse_eq_iff (input : Bytes) (value : Value δ) :
    (∃ fuel, parse fuel input = .ok value) ↔ Indented (textLines [] input) ∧
      (start (queueOf (textLines [] input)) : State δ ⊕ Value δ).elim
        (fun s => Delivers (flatten turn) s value) fun result => result = value := by
  have hread (lines : List Line) : (∃ fuel, iterate .endlessLoop readRound fuel ([], input) = .ok lines) ↔
      Indented (textLines [] input) ∧ lines = queueOf (textLines [] input) := by
    rw [← delivers_iff_iterate, delivers_readRound, List.nil_append]
  constructor
  · rintro ⟨fuel, h⟩
    obtain ⟨lines, hlines, h⟩ := bind_eq_ok.mp h
    obtain ⟨hindented, rfl⟩ := (hread lines).mp ⟨fuel, hlines⟩
    refine ⟨hindented, ?_⟩
    cases hstart : (start (queueOf (textLines [] input)) : State δ ⊕ Value δ) with
    | inl s =>
      rw [hstart] at h
      exact (nested_iff_flatten .endlessLoop).mp ⟨fuel, h⟩
    | inr result =>
      rw [hstart] at h
      exact Except.ok.inj h
  · rintro ⟨hindented, h⟩
    obtain ⟨m, hm⟩ := (hread _).mpr ⟨hindented, rfl⟩
    cases hstart : (start (queueOf (textLines [] input)) : State δ ⊕ Value δ) with
    | inl s =>
      rw [hstart] at h
      obtain ⟨n, hn⟩ := (nested_iff_flatten .endlessLoop).mpr h
      refine ⟨max m n, bind_eq_ok.mpr ⟨_, iterate_mono hm (le_max_left m n), ?_⟩⟩
      rw [hstart]
      exact iterate_nested_mono (iterate_mono hn (le_max_right m n)) (le_max_right m n)
    | inr result =>
      rw [hstart] at h
      refine ⟨m, bind_eq_ok.mpr ⟨_, hm, ?_⟩⟩
      rw [hstart]
      exact congrArg Except.ok h

theorem not_returns_of_not_fits {input : Bytes} {s : State δ}
    (hstart : start (queueOf (textLines [] input)) = .inl s) (h : ¬ Fits s) (fuel : ℕ)
    (value : Value δ) : parse fuel input ≠ .ok value := by
  intro hparse
  have hdelivers := ((parse_eq_iff input value).mp ⟨fuel, hparse⟩).2
  rw [hstart] at hdelivers
  exact h ((exists_delivers_turn_iff s).mp ⟨value, hdelivers⟩ s .refl)

/-- `parse` returns exactly when the spaces of the lines can be counted and the line in front fits in
every state that the parser comes to. -/
theorem parse_ends_iff (input : Bytes) :
    (∃ fuel, ∃ value : Value δ, parse fuel input = .ok value) ↔ Indented (textLines [] input) ∧
      ∀ s₀ s : State δ, start (queueOf (textLines [] input)) = .inl s₀ → Visits (flatten turn) s₀ s →
        Fits s := by
  rw [exists_comm]
  simp only [parse_eq_iff, exists_and_left]
  apply and_congr_right
  intro _
  cases hstart : (start (queueOf (textLines [] input)) : State δ ⊕ Value δ) with
  | inl s =>
    refine (exists_delivers_turn_iff s).trans ⟨fun h s₀ s' hs => ?_, fun h s' => h s s' rfl⟩
    obtain rfl := Sum.inl.inj hs
    exact h s'
  | inr result => exact ⟨fun _ s₀ s hs => (by cases hs), fun _ => ⟨result, rfl⟩⟩

/-- A line with one token. -/
theorem parse_wordLine : ¬ ∃ fuel, ∃ value : Value Unit, parse fuel (bytes "a") = .ok value := by
  have hstart : start (queueOf (textLines [] (bytes "a"))) =
      (.inl ⟨.dict [], none, [], [(0, [bytes "a"])]⟩ : State Unit ⊕ Value Unit) := rfl
  rintro ⟨fuel, value, h⟩
  apply not_returns_of_not_fits hstart _ fuel value h
  intro hfits
  have hlength := hfits rfl
  revert hlength
  decide

end Sese.Yaml
