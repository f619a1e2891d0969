import Sese.Config.XmlRoundTrip

/-!
# Where the tokens end

For which texts `deserialize` looks at the front of its queue when there are no more tokens: their
tokens end behind an attribute, behind a child, behind the bracket of a child or behind a comment in
front of a child.
-/
namespace Sese.Xml

open Foundation
open Net.Http (byteOrder)
open Json (Tokens)

inductive Attributes : Tokens → Tokens → Prop
  | nil (tokens : Tokens) : Attributes tokens tokens
  | cons {attrName value : Bytes} {tokens rest : Tokens} : ¬ (attrName = [62] ∨ attrName = [47]) →
    Attributes tokens rest → Attributes (attrName :: [61] :: value :: tokens) rest

/-- The name of a child, which a comment may be in front of. -/
inductive Named : Tokens → Bytes → Tokens → Prop
  | plain {name : Bytes} (tokens : Tokens) : name ≠ bytes "!--" → Named (name :: tokens) name tokens
  | comment {name token : Bytes} {tokens rest : Tokens} :
    removeComment (bytes "!--" :: tokens) = some (token :: name :: rest) →
    Named (bytes "!--" :: tokens) name rest

mutual

/-- A child behind its first bracket, up to the rest. The name begins again when something that is no
child is behind the children. -/
inductive Whole : ℕ → Tokens → Tokens → Prop
  | finishes {level : ℕ} {tokens inside rest : Tokens} {name : Bytes} : Named tokens name inside →
    Finishes level name inside rest → Whole (level + 1) tokens rest
  | again {level : ℕ} {tokens inside children behind rest : Tokens} {name front : Bytes} :
    Named tokens name inside → Attributes inside ([62] :: [60] :: children) →
    Children level ([60] :: children) (front :: behind) → front ≠ [60] →
    Whole (level + 1) (front :: behind) rest → Whole (level + 1) tokens rest

/-- What is behind the name of an element, up to the rest. -/
inductive Finishes : ℕ → Bytes → Tokens → Tokens → Prop
  | empty {level : ℕ} {name : Bytes} {inside rest : Tokens} :
    Attributes inside ([47] :: [62] :: rest) → Finishes level name inside rest
  | text {level : ℕ} {name front : Bytes} {inside words rest : Tokens} :
    Attributes inside ([62] :: front :: words) → front ≠ [60] →
    (words.dropWhile fun token => token ≠ [60]) = [60] :: [47] :: name :: [62] :: rest →
    Finishes level name inside rest
  | parent {level : ℕ} {name : Bytes} {inside children rest : Tokens} :
    Attributes inside ([62] :: [60] :: children) →
    Children level ([60] :: children) ([60] :: [47] :: name :: [62] :: rest) →
    Finishes level name inside rest

/-- Children with their brackets, up to the rest. -/
inductive Children : ℕ → Tokens → Tokens → Prop
  | nil (level : ℕ) (tokens : Tokens) : Children level tokens tokens
  | cons {level : ℕ} {front : Bytes} {tokens behind rest : Tokens} : front ≠ [47] →
    Whole level (front :: tokens) behind → Children level behind rest →
    Children level ([60] :: front :: tokens) rest

end

mutual

/-- The tokens of a child end where the parser looks for another one. -/
inductive Cut : ℕ → Tokens → Prop
  | comment {level : ℕ} {tokens : Tokens} : removeComment (bytes "!--" :: tokens) = some [] →
    Cut (level + 1) (bytes "!--" :: tokens)
  | bracket {level : ℕ} {tokens : Tokens} {token : Bytes} :
    removeComment (bytes "!--" :: tokens) = some [token] → Cut (level + 1) (bytes "!--" :: tokens)
  | inside {level : ℕ} {tokens inside : Tokens} {name : Bytes} : Named tokens name inside →
    CutInside level inside → Cut (level + 1) tokens
  | again {level : ℕ} {tokens inside children behind : Tokens} {name front : Bytes} :
    Named tokens name inside → Attributes inside ([62] :: [60] :: children) →
    Children level ([60] :: children) (front :: behind) → front ≠ [60] →
    Cut (level + 1) (front :: behind) → Cut (level + 1) tokens

/-- The tokens behind a name end so. -/
inductive CutInside : ℕ → Tokens → Prop
  | attributes {level : ℕ} {inside : Tokens} : inside ≠ [] → Attributes inside [] →
    CutInside level inside
  | child {level : ℕ} {inside children : Tokens} : Attributes inside ([62] :: [60] :: children) →
    Children level ([60] :: children) [] → CutInside level inside
  | bracket {level : ℕ} {inside children : Tokens} : Attributes inside ([62] :: [60] :: children) →
    Children level ([60] :: children) [[60]] → CutInside level inside
  | children {level : ℕ} {inside children behind : Tokens} {front : Bytes} :
    Attributes inside ([62] :: [60] :: children) →
    Children level ([60] :: children) ([60] :: front :: behind) → front ≠ [47] →
    Cut level (front :: behind) → CutInside level inside

end

/-- The tokens of a root end so. -/
inductive RootCut : ℕ → Tokens → Prop
  | comment {level : ℕ} {tokens rest : Tokens} : removeComment (bytes "!--" :: tokens) = some rest →
    RootCut level rest → RootCut level ([60] :: bytes "!--" :: tokens)
  | inside {level : ℕ} {name : Bytes} {inside : Tokens} : name ≠ bytes "!--" →
    CutInside level inside → RootCut (level + 1) ([60] :: name :: inside)

theorem attributes_stop {front : Bytes} (h : front = [62] ∨ front = [47]) {tokens rest : Tokens} :
    Attributes (front :: tokens) rest ↔ rest = front :: tokens := by
  constructor
  · intro hattributes
    cases hattributes with
    | nil => rfl
    | cons hne _ => exact absurd h hne
  · rintro rfl
    exact .nil _

theorem attributes_next {attrName : Bytes} (h : ¬ (attrName = [62] ∨ attrName = [47])) {equals value : Bytes}
    {tokens rest : Tokens} : Attributes (attrName :: equals :: value :: tokens) rest ↔
      rest = attrName :: equals :: value :: tokens ∨ equals = [61] ∧ Attributes tokens rest := by
  constructor
  · intro hattributes
    cases hattributes with
    | nil => exact .inl rfl
    | cons _ hattributes => exact .inr ⟨rfl, hattributes⟩
  · rintro (rfl | ⟨rfl, hattributes⟩)
    · exact .nil _
    · exact .cons h hattributes

theorem attributes_short {tokens rest : Tokens} (h : tokens.length ≤ 2) :
    Attributes tokens rest ↔ rest = tokens := by
  constructor
  · intro hattributes
    cases hattributes with
    | nil => rfl
    | cons _ _ => simp at h
  · rintro rfl
    exact .nil _

/-- All that `readAttributes` can do. -/
theorem readAttributes_spec (attributes : OrdMap byteOrder Bytes) (tokens : Tokens) :
    (∀ fault, readAttributes attributes tokens = .error fault ↔
      fault = .emptyDeque ∧ Attributes tokens []) ∧
    ∀ rest, (∃ read, readAttributes attributes tokens = .ok (some (read, rest))) ↔
      Attributes tokens rest ∧ ∃ front ∈ rest.head?, front = [62] ∨ front = [47] := by
  fun_induction readAttributes attributes tokens with
  | case1 => simp [attributes_short, eq_comm]
  | case2 attributes attrName tokens h =>
    simp [attributes_stop h, h, eq_comm]
  | case3 attributes attrName h equals value tokens hequals =>
    simpa [attributes_next h, hequals] using h
  | case4 attributes attrName h equals value tokens hequals ih =>
    rw [not_not] at hequals
    simp only [attributes_next h, hequals, ih, true_and]
    refine ⟨fun fault => by simp, fun rest => ⟨fun hrest => ⟨.inr hrest.1, hrest.2⟩, ?_⟩⟩
    rintro ⟨rfl | hattributes, front, hfront, hsign⟩
    · obtain rfl := Option.some.inj hfront
      exact absurd hsign h
    · exact ⟨hattributes, front, hfront, hsign⟩
  | case5 attributes attrName tokens h hshort =>
    have hlength : (attrName :: tokens).length ≤ 2 := by
      match tokens with
      | [] => simp
      | [_] => simp
      | first :: second :: tokens => exact absurd rfl (hshort first second tokens)
    rw [not_or] at h
    simp [attributes_short hlength, h]

theorem Attributes.length_le {tokens rest : Tokens} (h : Attributes tokens rest) :
    rest.length ≤ tokens.length := by
  induction h with
  | nil _ => exact le_rfl
  | cons _ _ ih =>
    simp only [List.length_cons]
    omega

theorem removeComment_length {tokens rest : Tokens} (h : removeComment tokens = some rest) :
    rest.length < tokens.length := by
  have hle := List.length_dropWhile_le (fun token => decide (token ≠ bytes "--")) tokens.tail
  rw [removeComment] at h
  split at h
  · rename_i hdrop
    split_ifs at h
    cases h
    rw [hdrop] at hle
    simp only [List.length_cons, List.length_tail] at hle
    omega
  · cases h

theorem Named.length_lt {tokens rest : Tokens} {name : Bytes} (h : Named tokens name rest) :
    rest.length < tokens.length := by
  cases h with
  | plain _ _ => exact Nat.lt_succ_self _
  | comment hcomment =>
    have hlt := removeComment_length hcomment
    simp only [List.length_cons] at hlt ⊢
    omega

mutual

theorem Whole.length_lt {level : ℕ} {tokens rest : Tokens} (h : Whole level tokens rest) :
    rest.length < tokens.length := by
  match h with
  | .finishes hname hfinishes =>
    exact lt_of_lt_of_le hfinishes.length_lt hname.length_lt.le
  | .again hname hattributes hchildren _ hwhole =>
    have hnamed := hname.length_lt
    have hinside := hattributes.length_le
    have hbehind := hchildren.length_le
    have hrest := hwhole.length_lt
    simp only [List.length_cons] at hinside hbehind hrest
    omega

theorem Finishes.length_lt {level : ℕ} {name : Bytes} {inside rest : Tokens}
    (h : Finishes level name inside rest) : rest.length < inside.length := by
  match h with
  | .empty hattributes =>
    have hinside := hattributes.length_le
    simp only [List.length_cons] at hinside
    omega
  | @Finishes.text _ _ _ _ words _ hattributes _ hwords =>
    have hinside := hattributes.length_le
    have hle := List.length_dropWhile_le (fun token => decide (token ≠ [60])) words
    rw [hwords] at hle
    simp only [List.length_cons] at hinside hle
    omega
  | .parent hattributes hchildren =>
    have hinside := hattributes.length_le
    have hbehind := hchildren.length_le
    simp only [List.length_cons] at hinside hbehind
    omega

theorem Children.length_le {level : ℕ} {tokens rest : Tokens} (h : Children level tokens rest) :
    rest.length ≤ tokens.length := by
  match h with
  | .nil _ _ => exact le_rfl
  | .cons _ hwhole hchildren =>
    have hlt := hwhole.length_lt
    have hle := hchildren.length_le
    simp only [List.length_cons] at hlt ⊢
    omega

end

/-- The recursive call reads a child, and faults where its tokens are cut off. -/
structure Creates (create : Tokens → Except Fault (Option (Element × Tokens))) (level : ℕ) : Prop where
  ok (front : Bytes) (tokens rest : Tokens) :
    (∃ element, create (front :: tokens) = .ok (some (element, rest))) ↔ Whole level (front :: tokens) rest
  error (front : Bytes) (tokens : Tokens) (fault : Fault) :
    create (front :: tokens) = .error fault ↔ fault = .emptyDeque ∧ Cut level (front :: tokens)

theorem children_stop {level : ℕ} {tokens : Tokens}
    (h : ∀ front behind, tokens = [60] :: front :: behind → front = [47]) (rest : Tokens) :
    Children level tokens rest ↔ rest = tokens := by
  constructor
  · intro hchildren
    cases hchildren with
    | nil _ _ => rfl
    | cons hne _ _ => exact absurd (h _ _ rfl) hne
  · rintro rfl
    exact .nil _ _

theorem children_next {level : ℕ} {front : Bytes} (h : front ≠ [47]) {tokens rest : Tokens} :
    Children level ([60] :: front :: tokens) rest ↔ rest = [60] :: front :: tokens ∨
      ∃ behind, Whole level (front :: tokens) behind ∧ Children level behind rest := by
  constructor
  · intro hchildren
    cases hchildren with
    | nil _ _ => exact .inl rfl
    | cons _ hwhole hchildren => exact .inr ⟨_, hwhole, hchildren⟩
  · rintro (rfl | ⟨behind, hwhole, hchildren⟩)
    · exact .nil _ _
    · exact .cons h hwhole hchildren

def ChildrenCut (level : ℕ) (tokens : Tokens) : Prop :=
  Children level tokens [] ∨ Children level tokens [[60]] ∨
    ∃ front behind, Children level tokens ([60] :: front :: behind) ∧ front ≠ [47] ∧
      Cut level (front :: behind)

/-- What the loop over the children comes to. -/
structure ChildrenSpec (level : ℕ) (name : Bytes) (tokens : Tokens) (result : Except Fault Round) :
    Prop where
  returned (rest : Tokens) : (∃ element, result = .ok (.returned element rest)) ↔
    Children level tokens ([60] :: [47] :: name :: [62] :: rest)
  again (rest : Tokens) : (∃ element, result = .ok (.again element rest)) ↔
    Children level tokens rest ∧ ∃ front ∈ rest.head?, front ≠ [60]
  error (fault : Fault) : result = .error fault ↔ fault = .emptyDeque ∧ ChildrenCut level tokens

theorem closing_returned (element : Element) (tokens rest : Tokens) :
    (∃ e, closing element tokens = .returned e rest) ↔ tokens = element.name :: [62] :: rest := by
  match tokens with
  | [] => simp [closing]
  | [name] => simp [closing]
  | name :: bracket :: tokens =>
    rw [closing]
    by_cases h : name = element.name ∧ bracket = [62]
    · obtain ⟨rfl, rfl⟩ := h
      simp
    · rw [if_neg h]
      simp only [reduceCtorEq, exists_false, false_iff, List.cons.injEq]
      exact fun heq => h ⟨heq.1, heq.2.1⟩

@[simp] theorem closing_again (element e : Element) (tokens rest : Tokens) :
    closing element tokens ≠ .again e rest := by
  intro h
  match tokens with
  | [] => cases h
  | [name] => cases h
  | name :: bracket :: tokens =>
    rw [closing] at h
    split_ifs at h

section

variable {create : Tokens → Except Fault (Option (Element × Tokens))} {level : ℕ}

theorem childrenSpec_stop {tokens : Tokens}
    (h : ∀ front behind, tokens = [60] :: front :: behind → front = [47]) {name : Bytes}
    {result : Except Fault Round}
    (hreturned : ∀ rest, (∃ element, result = .ok (.returned element rest)) ↔
      tokens = [60] :: [47] :: name :: [62] :: rest)
    (hagain : ∀ rest, (∃ element, result = .ok (.again element rest)) ↔
      tokens = rest ∧ ∃ front ∈ tokens.head?, front ≠ [60])
    (herror : ∀ fault, result = .error fault ↔ fault = .emptyDeque ∧ (tokens = [] ∨ tokens = [[60]])) :
    ChildrenSpec level name tokens result := by
  refine ⟨fun rest => ?_, fun rest => ?_, fun fault => ?_⟩
  · rw [hreturned, children_stop h, eq_comm]
  · rw [hagain, children_stop h, eq_comm]
    constructor
    · rintro ⟨rfl, hfront⟩
      exact ⟨rfl, hfront⟩
    · rintro ⟨rfl, hfront⟩
      exact ⟨rfl, hfront⟩
  · have hcut : ¬ ∃ front behind, Children level tokens ([60] :: front :: behind) ∧ front ≠ [47] ∧
        Cut level (front :: behind) := by
      rintro ⟨front, behind, hchildren, hne, -⟩
      exact hne (h front behind ((children_stop h _).mp hchildren).symm)
    rw [herror, ChildrenCut, children_stop h, children_stop h, or_iff_left hcut, @eq_comm _ [],
      @eq_comm _ [[60]]]

theorem children_again {front : Bytes} (hslash : front ≠ [47]) {tokens rest : Tokens} :
    (Children level ([60] :: front :: tokens) rest ∧ ∃ front ∈ rest.head?, front ≠ [60]) ↔
      ∃ behind, Whole level (front :: tokens) behind ∧ Children level behind rest ∧
        ∃ front ∈ rest.head?, front ≠ [60] := by
  rw [children_next hslash]
  constructor
  · rintro ⟨rfl | ⟨behind, hwhole, h⟩, token, htoken, hne⟩
    · exact absurd (Option.some.inj htoken).symm hne
    · exact ⟨behind, hwhole, h, token, htoken, hne⟩
  · rintro ⟨behind, hwhole, h, hfront⟩
    exact ⟨.inr ⟨behind, hwhole, h⟩, hfront⟩

theorem childrenCut_next {front : Bytes} (hslash : front ≠ [47]) {tokens : Tokens} :
    ChildrenCut level ([60] :: front :: tokens) ↔ Cut level (front :: tokens) ∨
      ∃ behind, Whole level (front :: tokens) behind ∧ ChildrenCut level behind := by
  have hshort (rest : Tokens) (hrest : rest.length ≤ 1) : Children level ([60] :: front :: tokens) rest ↔
      ∃ behind, Whole level (front :: tokens) behind ∧ Children level behind rest := by
    rw [children_next hslash]
    refine or_iff_right ?_
    rintro rfl
    simp at hrest
  rw [ChildrenCut, hshort [] (Nat.zero_le 1), hshort [[60]] le_rfl]
  constructor
  · rintro (⟨behind, hwhole, h⟩ | ⟨behind, hwhole, h⟩ | ⟨first, rest, h, hne, hcut⟩)
    · exact .inr ⟨behind, hwhole, .inl h⟩
    · exact .inr ⟨behind, hwhole, .inr (.inl h)⟩
    · rcases (children_next hslash).mp h with heq | ⟨behind, hwhole, h⟩
      · cases heq
        exact .inl hcut
      · exact .inr ⟨behind, hwhole, .inr (.inr ⟨first, rest, h, hne, hcut⟩)⟩
  · rintro (h | ⟨behind, hwhole, h | h | ⟨first, rest, h, hne, hcut⟩⟩)
    · exact .inr (.inr ⟨front, tokens, .nil _ _, hslash, h⟩)
    · exact .inl ⟨behind, hwhole, h⟩
    · exact .inr (.inl ⟨behind, hwhole, h⟩)
    · exact .inr (.inr ⟨first, rest, .cons hslash hwhole h, hne, hcut⟩)

/-- The loop is at a child. -/
theorem readChildren_next (hcreate : Creates create level) {fuel : ℕ} {front : Bytes} (hslash : front ≠ [47])
    (tokens : Tokens) (element : Element)
    (ih : ∀ behind : Tokens, behind.length ≤ tokens.length → ∀ element : Element,
      ChildrenSpec level element.name behind (readChildren create fuel element behind)) :
    ChildrenSpec level element.name ([60] :: front :: tokens)
      (readChildren create (fuel + 1) element ([60] :: front :: tokens)) := by
  have hend (rest : Tokens) :
      Children level ([60] :: front :: tokens) ([60] :: [47] :: element.name :: [62] :: rest) ↔ ∃ behind,
        Whole level (front :: tokens) behind ∧
          Children level behind ([60] :: [47] :: element.name :: [62] :: rest) := by
    rw [children_next hslash]
    refine or_iff_right ?_
    intro heq
    cases heq
    exact hslash rfl
  have hcutError := hcreate.error front tokens .emptyDeque
  rw [readChildren_child hslash]
  cases hresult : create (front :: tokens) with
  | error fault =>
    obtain ⟨rfl, hfault⟩ := (hcreate.error front tokens fault).mp hresult
    have hwhole (behind : Tokens) : ¬ Whole level (front :: tokens) behind := by
      simp [← hcreate.ok, hresult]
    refine ⟨fun rest => ?_, fun rest => ?_, fun fault => ?_⟩
    · simp [hend, hwhole, Except.bind]
    · rw [children_again hslash]
      simp [hwhole, Except.bind]
    · simp [childrenCut_next hslash, hfault, Except.bind, eq_comm]
  | ok result =>
    have hfault : ¬ Cut level (front :: tokens) := by simpa [hresult] using hcutError
    cases result with
    | none =>
      have hwhole (behind : Tokens) : ¬ Whole level (front :: tokens) behind := by
        simp [← hcreate.ok, hresult]
      refine ⟨fun rest => ?_, fun rest => ?_, fun fault => ?_⟩
      · simp [hend, hwhole, Except.bind]
      · rw [children_again hslash]
        simp [hwhole, Except.bind]
      · simp [childrenCut_next hslash, hfault, hwhole, Except.bind]
    | some result =>
      obtain ⟨object, behind⟩ := result
      have hwhole (behind' : Tokens) : Whole level (front :: tokens) behind' ↔ behind' = behind := by
        simp [← hcreate.ok, hresult, eq_comm]
      have hlength := ((hwhole behind).mpr rfl).length_lt
      obtain ⟨hreturned, hmore, herror⟩ := ih behind (Nat.le_of_lt_succ hlength)
        { element with elements := element.elements ++ [object] }
      refine ⟨fun rest => ?_, fun rest => ?_, fun fault => ?_⟩
      · simpa [hend, hwhole, Except.bind] using hreturned rest
      · rw [children_again hslash]
        simpa [hwhole, Except.bind] using hmore rest
      · simpa [childrenCut_next hslash, hfault, hwhole, Except.bind] using herror fault

theorem readChildren_spec (hcreate : Creates create level) {fuel : ℕ} {tokens : Tokens}
    (hfuel : tokens.length < fuel) (element : Element) :
    ChildrenSpec level element.name tokens (readChildren create fuel element tokens) := by
  induction fuel generalizing tokens element with
  | zero => omega
  | succ fuel ih =>
    cases tokens with
    | nil =>
      apply childrenSpec_stop (fun _ _ heq => by cases heq)
      · simp [readChildren]
      · simp [readChildren]
      · simp [readChildren, eq_comm]
    | cons front tokens =>
      by_cases hfront : front = [60]
      · subst hfront
        cases tokens with
        | nil =>
          have hresult : readChildren create (fuel + 1) element [[60]] = .error .emptyDeque := rfl
          rw [hresult]
          apply childrenSpec_stop (fun _ _ heq => by cases heq)
          · simp
          · simp
          · simp [eq_comm]
        | cons front tokens =>
          by_cases hslash : front = [47]
          · subst hslash
            have hresult : readChildren create (fuel + 1) element ([60] :: [47] :: tokens) =
                .ok (closing element tokens) := rfl
            rw [hresult]
            apply childrenSpec_stop (fun _ _ heq => by cases heq; rfl)
            · simp [closing_returned]
            · simp
            · simp
          · apply readChildren_next hcreate hslash
            intro behind hbehind element
            apply ih
            simp only [List.length_cons] at hfuel
            omega
      · have hagain : readChildren create (fuel + 1) element (front :: tokens) =
            .ok (.again element (front :: tokens)) := by
          rw [readChildren.eq_def]
          exact if_pos hfront
        rw [hagain]
        apply childrenSpec_stop (fun _ _ heq => absurd (List.cons.inj heq).1 hfront)
        · simp [hfront]
        · simp [hfront]
        · simp [hfront]

def Continues (level : ℕ) (inside rest : Tokens) : Prop :=
  ∃ children, Attributes inside ([62] :: [60] :: children) ∧ Children level ([60] :: children) rest ∧
    ∃ front ∈ rest.head?, front ≠ [60]

/-- What a round comes to behind a name. -/
structure ElementSpec (level : ℕ) (name : Bytes) (inside : Tokens) (result : Except Fault Round) :
    Prop where
  returned (rest : Tokens) :
    (∃ element, result = .ok (.returned element rest)) ↔ Finishes level name inside rest
  again (rest : Tokens) : (∃ element, result = .ok (.again element rest)) ↔ Continues level inside rest
  error (fault : Fault) : result = .error fault ↔ fault = .emptyDeque ∧ CutInside level inside

def Behind (tokens : Tokens) : Prop := ∃ front ∈ tokens.head?, front = [62] ∨ front = [47]

theorem finishes_iff {name : Bytes} {inside rest : Tokens} : Finishes level name inside rest ↔
    Attributes inside ([47] :: [62] :: rest) ∨
    (∃ front words, Attributes inside ([62] :: front :: words) ∧ front ≠ [60] ∧
      (words.dropWhile fun token => token ≠ [60]) = [60] :: [47] :: name :: [62] :: rest) ∨
    ∃ children, Attributes inside ([62] :: [60] :: children) ∧
      Children level ([60] :: children) ([60] :: [47] :: name :: [62] :: rest) := by
  constructor
  · intro h
    cases h with
    | empty h => exact .inl h
    | text h hne hwords => exact .inr (.inl ⟨_, _, h, hne, hwords⟩)
    | parent h hchildren => exact .inr (.inr ⟨_, h, hchildren⟩)
  · rintro (h | ⟨front, words, h, hne, hwords⟩ | ⟨children, h, hchildren⟩)
    · exact .empty h
    · exact .text h hne hwords
    · exact .parent h hchildren

theorem cutInside_iff {inside : Tokens} : CutInside level inside ↔
    (inside ≠ [] ∧ Attributes inside []) ∨
    ∃ children, Attributes inside ([62] :: [60] :: children) ∧ ChildrenCut level ([60] :: children) := by
  constructor
  · intro h
    cases h with
    | attributes hne h => exact .inl ⟨hne, h⟩
    | child h hchildren => exact .inr ⟨_, h, .inl hchildren⟩
    | bracket h hchildren => exact .inr ⟨_, h, .inr (.inl hchildren)⟩
    | children h hchildren hne hcut => exact .inr ⟨_, h, .inr (.inr ⟨_, _, hchildren, hne, hcut⟩)⟩
  · rintro (⟨hne, h⟩ | ⟨children, h, hchildren | hchildren | ⟨front, behind, hchildren, hne, hcut⟩⟩)
    · exact .attributes hne h
    · exact .child h hchildren
    · exact .bracket h hchildren
    · exact .children h hchildren hne hcut

theorem Behind.attributes {tokens : Tokens} (h : Behind tokens) (rest : Tokens) :
    Attributes tokens rest ↔ rest = tokens := by
  obtain ⟨front, hfront, hsign⟩ := h
  cases tokens with
  | nil => cases hfront
  | cons first tail =>
    obtain rfl := Option.some.inj hfront
    exact attributes_stop hsign

theorem behind_bracket (rest : Tokens) : Behind ([62] :: rest) := ⟨[62], rfl, .inl rfl⟩

theorem behind_slash (rest : Tokens) : Behind ([47] :: rest) := ⟨[47], rfl, .inr rfl⟩

theorem ElementSpec.behind {name : Bytes} {inside tokens : Tokens} {result : Except Fault Round}
    (htokens : Behind tokens)
    (hattributes : ∀ rest, Behind rest → (Attributes inside rest ↔ rest = tokens))
    (hend : ¬ Attributes inside []) (h : ElementSpec level name tokens result) :
    ElementSpec level name inside result := by
  have hbracket (rest : Tokens) : Attributes inside ([62] :: rest) ↔ Attributes tokens ([62] :: rest) :=
    (hattributes _ (behind_bracket rest)).trans (htokens.attributes _).symm
  have hslash (rest : Tokens) : Attributes inside ([47] :: rest) ↔ Attributes tokens ([47] :: rest) :=
    (hattributes _ (behind_slash rest)).trans (htokens.attributes _).symm
  have hend' : ¬ Attributes tokens [] := by
    rw [htokens.attributes]
    rintro rfl
    obtain ⟨front, hfront, -⟩ := htokens
    cases hfront
  refine ⟨fun rest => ?_, fun rest => ?_, fun fault => ?_⟩
  · rw [h.returned, finishes_iff, finishes_iff]
    simp only [hbracket, hslash]
  · rw [h.again, Continues, Continues]
    simp only [hbracket]
  · rw [h.error, cutInside_iff, cutInside_iff]
    simp only [hbracket, hend, hend', and_false]

theorem ElementSpec.of_behind {name : Bytes} {tokens : Tokens} (h : Behind tokens)
    {result : Except Fault Round}
    (hreturned : ∀ rest, (∃ e, result = .ok (.returned e rest)) ↔ tokens = [47] :: [62] :: rest ∨
      (∃ first words, tokens = [62] :: first :: words ∧ first ≠ [60] ∧
        (words.dropWhile fun token => token ≠ [60]) = [60] :: [47] :: name :: [62] :: rest) ∨
      ∃ children, tokens = [62] :: [60] :: children ∧
        Children level ([60] :: children) ([60] :: [47] :: name :: [62] :: rest))
    (hagain : ∀ rest, (∃ e, result = .ok (.again e rest)) ↔ ∃ children,
      tokens = [62] :: [60] :: children ∧ Children level ([60] :: children) rest ∧
        ∃ front ∈ rest.head?, front ≠ [60])
    (herror : ∀ fault, result = .error fault ↔ fault = .emptyDeque ∧ ∃ children,
      tokens = [62] :: [60] :: children ∧ ChildrenCut level ([60] :: children)) :
    ElementSpec level name tokens result := by
  refine ⟨fun rest => ?_, fun rest => ?_, fun fault => ?_⟩
  · rw [hreturned, finishes_iff]
    simp only [h.attributes, eq_comm]
  · rw [hagain, Continues]
    simp only [h.attributes, eq_comm]
  · have hend : ¬ (tokens ≠ [] ∧ Attributes tokens []) := by
      rintro ⟨hne, hattributes⟩
      exact hne ((h.attributes []).mp hattributes).symm
    rw [herror, cutInside_iff, or_iff_right hend]
    simp only [h.attributes, eq_comm]

theorem ElementSpec.of_unread {name : Bytes} {inside : Tokens} {result : Except Fault Round}
    (hnone : ∀ rest, Behind rest → ¬ Attributes inside rest)
    (hreturned : ∀ e rest, result ≠ .ok (.returned e rest)) (hagain : ∀ e rest, result ≠ .ok (.again e rest))
    (hfault : ∀ fault, result = .error fault ↔ fault = .emptyDeque ∧ inside ≠ [] ∧ Attributes inside []) :
    ElementSpec level name inside result := by
  refine ⟨fun rest => ?_, fun rest => ?_, fun fault => ?_⟩
  · simp [hreturned, finishes_iff, hnone _ (behind_bracket _), hnone _ (behind_slash _)]
  · simp [hagain, Continues, hnone _ (behind_bracket _)]
  · simp [hfault, cutInside_iff, hnone _ (behind_bracket _)]

theorem readText_returned (element : Element) {front : Bytes} (hfront : front ≠ [60]) (words rest : Tokens) :
    (∃ e, readText element (front :: words) = .returned e rest) ↔
      (words.dropWhile fun token => token ≠ [60]) = [60] :: [47] :: element.name :: [62] :: rest := by
  have hdrop : (front :: words).dropWhile (fun token => token ≠ [60]) =
      words.dropWhile fun token => token ≠ [60] := List.dropWhile_cons_of_pos (decide_eq_true hfront)
  have hhead := List.head?_dropWhile_not (fun token => decide (token ≠ [60])) words
  rw [readText, hdrop]
  rcases hwords : words.dropWhile fun token => token ≠ [60] with _ | ⟨bracket, _ | ⟨slash, tokens⟩⟩
  · rw [hwords]
    simp
  · rw [hwords]
    simp
  · rw [hwords] at hhead ⊢
    obtain rfl : bracket = [60] := by simpa using hhead
    by_cases hslash : slash = [47]
    · subst hslash
      have hclosing := closing_returned
        { element with value := [32].intercalate ((front :: words).takeWhile fun token => token ≠ [60]) }
        tokens rest
      simpa using hclosing
    · simp [hslash]

theorem readText_again (element e : Element) (tokens rest : Tokens) :
    readText element tokens ≠ .again e rest := by
  intro h
  rw [readText] at h
  split at h
  · split_ifs at h
    exact closing_again _ _ _ _ h
  · cases h

theorem readContent_spec (hcreate : Creates create level) (element : Element) {tokens : Tokens}
    (h : Behind tokens) : ElementSpec level element.name tokens (readContent create element tokens) := by
  obtain ⟨front, hfront, hsign⟩ := h
  match tokens with
  | [] => cases hfront
  | [token] =>
    have hresult : readContent create element [token] = .ok .null := by
      rw [readContent.eq_def]
      dsimp only
      split_ifs <;> rfl
    rw [hresult]
    apply ElementSpec.of_behind ⟨_, hfront, hsign⟩ <;> simp
  | first :: second :: tail =>
    obtain rfl := Option.some.inj hfront
    rcases hsign with rfl | rfl
    · by_cases hchildren : second = [60]
      · subst hchildren
        have hresult : readContent create element ([62] :: [60] :: tail) =
            readChildren create (([60] :: tail).length + 1) element ([60] :: tail) := by
          rw [readContent.eq_def]
          dsimp only
          rw [if_neg (by decide), if_pos rfl]
        obtain ⟨hreturned, hagain, herror⟩ := readChildren_spec hcreate
          (Nat.lt_succ_self ([60] :: tail).length) element
        rw [hresult]
        apply ElementSpec.of_behind (behind_bracket _)
        · intro rest
          rw [hreturned]
          simp
        · intro rest
          rw [hagain]
          simp
        · intro fault
          rw [herror]
          simp
      · have hresult : readContent create element ([62] :: second :: tail) =
            .ok (readText element (second :: tail)) := by
          rw [readContent.eq_def]
          dsimp only
          rw [if_neg (by decide), if_neg hchildren]
        rw [hresult]
        apply ElementSpec.of_behind (behind_bracket _)
        · intro rest
          simp [readText_returned element hchildren, hchildren]
        · simp [readText_again, hchildren]
        · simp [hchildren]
    · have hresult : readContent create element ([47] :: second :: tail) =
          .ok (if second = [62] then .returned element tail else .null) := rfl
      rw [hresult]
      apply ElementSpec.of_behind (behind_slash _)
      · intro rest
        by_cases hbracket : second = [62] <;> simp [hbracket]
      · intro rest
        by_cases hbracket : second = [62] <;> simp [hbracket]
      · simp

theorem readElement_spec (hcreate : Creates create level) (name : Bytes) (inside : Tokens) :
    ElementSpec level name inside (readElement create (name :: inside)) := by
  obtain ⟨herror, hok⟩ := readAttributes_spec .empty inside
  cases inside with
  | nil =>
    have hattributes (rest : Tokens) : Attributes [] rest ↔ rest = [] := attributes_short (Nat.zero_le _)
    rw [readElement]
    apply ElementSpec.of_unread
    · rintro rest ⟨front, hfront, -⟩ h
      obtain rfl := (hattributes rest).mp h
      cases hfront
    · simp
    · simp
    · simp
  | cons first inside =>
    rw [readElement]
    · cases hread : readAttributes .empty (first :: inside) with
      | error fault =>
        obtain ⟨rfl, hend⟩ := (herror fault).mp hread
        apply ElementSpec.of_unread
        · intro rest hrest h
          obtain ⟨read, hread'⟩ := (hok rest).mpr ⟨h, hrest⟩
          cases hread.symm.trans hread'
        · simp [bind, Except.bind]
        · simp [bind, Except.bind]
        · simp [bind, Except.bind, hend, eq_comm]
      | ok read =>
        have hend : ¬ Attributes (first :: inside) [] := by
          intro h
          cases hread.symm.trans ((herror _).mpr ⟨rfl, h⟩)
        cases read with
        | none =>
          apply ElementSpec.of_unread
          · intro rest hrest h
            obtain ⟨read, hread'⟩ := (hok rest).mpr ⟨h, hrest⟩
            cases hread.symm.trans hread'
          · simp [bind, Except.bind]
          · simp [bind, Except.bind]
          · simp [bind, Except.bind, hend]
        | some read =>
          obtain ⟨attributes, tokens⟩ := read
          obtain ⟨hattributes, htokens⟩ := (hok tokens).mp ⟨attributes, hread⟩
          apply ElementSpec.behind htokens _ hend (readContent_spec hcreate { name, attributes } htokens)
          intro rest hrest
          constructor
          · intro h
            obtain ⟨read, hread'⟩ := (hok rest).mpr ⟨h, hrest⟩
            cases hread.symm.trans hread'
            rfl
          · rintro rfl
            exact hattributes
    · exact List.cons_ne_nil _ _

/-- What the loop makes of a round; `next` is the loop in the next one. -/
def proceed (next : Element → Tokens → Except Fault (Option (Element × Tokens))) :
    Round → Except Fault (Option (Element × Tokens))
  | .null => .ok none
  | .returned element rest => .ok (some (element, rest))
  | .again element behind => next element behind

theorem elementLoop_null {isSubElement : Bool} {front : Bytes} {tokens : Tokens}
    (hround : round create isSubElement (front :: tokens) = .ok (.inl .null)) (fuel : ℕ)
    (element : Option Element) :
    elementLoop create isSubElement (fuel + 1) element (front :: tokens) = .ok none := by
  rw [elementLoop, hround]
  rfl

theorem elementLoop_error {isSubElement : Bool} {front : Bytes} {tokens : Tokens} {fault : Fault}
    (hround : round create isSubElement (front :: tokens) = .error fault) (fuel : ℕ)
    (element : Option Element) :
    elementLoop create isSubElement (fuel + 1) element (front :: tokens) = .error fault := by
  rw [elementLoop, hround]
  rfl

theorem elementLoop_named {isSubElement : Bool} {front name : Bytes} {tokens inside : Tokens}
    (hround : round create isSubElement (front :: tokens) = .inl <$> readElement create (name :: inside))
    (fuel : ℕ) (element : Option Element) :
    elementLoop create isSubElement (fuel + 1) element (front :: tokens) =
      (readElement create (name :: inside)).bind
        (proceed fun element behind => elementLoop create isSubElement fuel (some element) behind) := by
  rw [elementLoop, hround]
  cases readElement create (name :: inside) with
  | error fault => rfl
  | ok read => cases read <;> rfl

structure LoopSpec (level : ℕ) (tokens : Tokens) (result : Except Fault (Option (Element × Tokens))) :
    Prop where
  ok (rest : Tokens) : (∃ element, result = .ok (some (element, rest))) ↔ Whole (level + 1) tokens rest
  error (fault : Fault) : result = .error fault ↔ fault = .emptyDeque ∧ Cut (level + 1) tokens

theorem whole_iff {tokens inside : Tokens} {name : Bytes}
    (hnamed : ∀ n i, Named tokens n i ↔ n = name ∧ i = inside) (rest : Tokens) :
    Whole (level + 1) tokens rest ↔ Finishes level name inside rest ∨
      ∃ behind, Continues level inside behind ∧ Whole (level + 1) behind rest := by
  constructor
  · intro h
    cases h with
    | finishes hname hfinishes =>
      obtain ⟨rfl, rfl⟩ := (hnamed _ _).mp hname
      exact .inl hfinishes
    | again hname hattributes hchildren hfront hwhole =>
      obtain ⟨rfl, rfl⟩ := (hnamed _ _).mp hname
      exact .inr ⟨_, ⟨_, hattributes, hchildren, _, rfl, hfront⟩, hwhole⟩
  · have hname := (hnamed name inside).mpr ⟨rfl, rfl⟩
    rintro (h | ⟨behind, ⟨children, hattributes, hchildren, front, hfront, hne⟩, hwhole⟩)
    · exact .finishes hname h
    · cases behind with
      | nil => cases hfront
      | cons first behind =>
        obtain rfl := Option.some.inj hfront
        exact .again hname hattributes hchildren hne hwhole

theorem cut_iff {tokens inside : Tokens} {name : Bytes}
    (hnamed : ∀ n i, Named tokens n i ↔ n = name ∧ i = inside)
    (hcomment : tokens.head? = some (bytes "!--") →
      ∃ token, removeComment tokens = some (token :: name :: inside)) :
    Cut (level + 1) tokens ↔ CutInside level inside ∨
      ∃ behind, Continues level inside behind ∧ Cut (level + 1) behind := by
  constructor
  · intro h
    cases h with
    | comment hremove =>
      obtain ⟨token, hremove'⟩ := hcomment rfl
      cases hremove.symm.trans hremove'
    | bracket hremove =>
      obtain ⟨token, hremove'⟩ := hcomment rfl
      cases hremove.symm.trans hremove'
    | inside hname hcut =>
      obtain ⟨rfl, rfl⟩ := (hnamed _ _).mp hname
      exact .inl hcut
    | again hname hattributes hchildren hfront hcut =>
      obtain ⟨rfl, rfl⟩ := (hnamed _ _).mp hname
      exact .inr ⟨_, ⟨_, hattributes, hchildren, _, rfl, hfront⟩, hcut⟩
  · have hname := (hnamed name inside).mpr ⟨rfl, rfl⟩
    rintro (h | ⟨behind, ⟨children, hattributes, hchildren, front, hfront, hne⟩, hcut⟩)
    · exact .inside hname h
    · cases behind with
      | nil => cases hfront
      | cons first behind =>
        obtain rfl := Option.some.inj hfront
        exact .again hname hattributes hchildren hne hcut

theorem loop_unnamed {tokens : Tokens} (hnamed : ∀ n i, ¬ Named tokens n i)
    {result : Except Fault (Option (Element × Tokens))} (hok : ∀ read, result ≠ .ok (some read))
    (herror : ∀ fault, result = .error fault ↔ fault = .emptyDeque ∧
      tokens.head? = some (bytes "!--") ∧
        (removeComment tokens = some [] ∨ ∃ token, removeComment tokens = some [token])) :
    LoopSpec level tokens result := by
  have hwhole (rest : Tokens) : ¬ Whole (level + 1) tokens rest := by
    intro h
    cases h with
    | finishes hname _ => exact hnamed _ _ hname
    | again hname _ _ _ _ => exact hnamed _ _ hname
  refine ⟨fun rest => by simp [hok, hwhole], fun fault => ?_⟩
  rw [herror]
  refine and_congr_right fun _ => ⟨?_, fun h => ?_⟩
  · rintro ⟨hhead, hremove⟩
    cases tokens with
    | nil => cases hhead
    | cons first tokens =>
      obtain rfl := Option.some.inj hhead
      rcases hremove with hremove | ⟨token, hremove⟩
      · exact .comment hremove
      · exact .bracket hremove
  · cases h with
    | comment hremove => exact ⟨rfl, .inl hremove⟩
    | bracket hremove => exact ⟨rfl, .inr ⟨_, hremove⟩⟩
    | inside hname _ => exact absurd hname (hnamed _ _)
    | again hname _ _ _ _ => exact absurd hname (hnamed _ _)

theorem loop_named (hcreate : Creates create level) {tokens inside : Tokens} {name : Bytes}
    (hnamed : ∀ n i, Named tokens n i ↔ n = name ∧ i = inside)
    (hcomment : tokens.head? = some (bytes "!--") →
      ∃ token, removeComment tokens = some (token :: name :: inside))
    {next : Element → Tokens → Except Fault (Option (Element × Tokens))}
    (ih : ∀ element behind, Continues level inside behind → LoopSpec level behind (next element behind)) :
    LoopSpec level tokens ((readElement create (name :: inside)).bind (proceed next)) := by
  obtain ⟨hreturned, hagain, herror⟩ := readElement_spec hcreate name inside
  have hcut := herror .emptyDeque
  cases hread : readElement create (name :: inside) with
  | error fault =>
    obtain ⟨rfl, hfault⟩ := (herror fault).mp hread
    simp only [hread, reduceCtorEq, exists_false, false_iff] at hreturned hagain
    refine ⟨fun rest => ?_, fun fault => ?_⟩
    · simp [whole_iff hnamed, hreturned, hagain, Except.bind]
    · simp [cut_iff hnamed hcomment, hfault, Except.bind, eq_comm]
  | ok read =>
    have hfault : ¬ CutInside level inside := by simpa [hread] using hcut
    simp only [hread, Except.ok.injEq] at hreturned hagain
    cases read with
    | null =>
      simp only [reduceCtorEq, exists_false, false_iff] at hreturned hagain
      refine ⟨fun rest => ?_, fun fault => ?_⟩
      · simp [whole_iff hnamed, hreturned, hagain, Except.bind, proceed]
      · simp [cut_iff hnamed hcomment, hfault, hagain, Except.bind, proceed]
    | returned element rest =>
      simp only [reduceCtorEq, exists_false, false_iff] at hagain
      refine ⟨fun rest' => ?_, fun fault => ?_⟩
      · simp [whole_iff hnamed, ← hreturned, hagain, Except.bind, proceed]
      · simp [cut_iff hnamed hcomment, hfault, hagain, Except.bind, proceed]
    | again element behind =>
      simp only [reduceCtorEq, exists_false, false_iff] at hreturned
      obtain ⟨hok, hnext⟩ := ih element behind ((hagain behind).mp ⟨element, rfl⟩)
      refine ⟨fun rest => ?_, fun fault => ?_⟩
      · simpa [whole_iff hnamed, hreturned, ← hagain, Except.bind, proceed] using hok rest
      · simpa [cut_iff hnamed hcomment, hfault, ← hagain, Except.bind, proceed] using hnext fault

theorem Continues.length_lt {inside rest : Tokens} (h : Continues level inside rest) :
    rest.length < inside.length := by
  obtain ⟨children, hattributes, hchildren, -⟩ := h
  have hinside := hattributes.length_le
  have hbehind := hchildren.length_le
  simp only [List.length_cons] at hinside hbehind
  omega

theorem named_comment_iff {tokens inside : Tokens} {name : Bytes} :
    Named (bytes "!--" :: tokens) name inside ↔
      ∃ token, removeComment (bytes "!--" :: tokens) = some (token :: name :: inside) := by
  constructor
  · intro h
    cases h with
    | plain _ hne => exact absurd rfl hne
    | comment hremove => exact ⟨_, hremove⟩
  · rintro ⟨token, hremove⟩
    exact .comment hremove

theorem named_plain_iff {front : Bytes} (h : front ≠ bytes "!--") {tokens inside : Tokens} {name : Bytes} :
    Named (front :: tokens) name inside ↔ name = front ∧ inside = tokens := by
  constructor
  · intro hname
    cases hname with
    | plain _ _ => exact ⟨rfl, rfl⟩
    | comment _ => exact absurd rfl h
  · rintro ⟨rfl, rfl⟩
    exact .plain _ h

/-- The loop at a comment; the tokens behind its first one are gone without a look at them. -/
theorem elementLoop_comment (hcreate : Creates create level) {fuel : ℕ} {tokens : Tokens}
    (hnext : ∀ inside : Tokens, inside.length ≤ tokens.length → ∀ element behind,
      Continues level inside behind → LoopSpec level behind (elementLoop create true fuel (some element) behind))
    (element : Option Element) : LoopSpec level (bytes "!--" :: tokens)
      (elementLoop create true (fuel + 1) element (bytes "!--" :: tokens)) := by
  rcases hremove : removeComment (bytes "!--" :: tokens) with _ | ⟨_ | ⟨token, _ | ⟨name, inside⟩⟩⟩
  · have hround : round create true (bytes "!--" :: tokens) = .ok (.inl .null) := by
      simp only [round, if_true, List.head?_cons, hremove]
    rw [elementLoop_null hround]
    apply loop_unnamed
    · simp [named_comment_iff, hremove]
    · simp
    · simp [hremove]
  · have hround : round create true (bytes "!--" :: tokens) = .error .emptyDeque := by
      simp only [round, if_true, List.head?_cons, hremove]
    rw [elementLoop_error hround]
    apply loop_unnamed
    · simp [named_comment_iff, hremove]
    · simp
    · simp [hremove, eq_comm]
  · have hround : round create true (bytes "!--" :: tokens) = .error .emptyDeque := by
      simp only [round, if_true, List.head?_cons, hremove, readElement]
      rfl
    rw [elementLoop_error hround]
    apply loop_unnamed
    · simp [named_comment_iff, hremove]
    · simp
    · simp [hremove, eq_comm]
  · have hinside := removeComment_length hremove
    have hround : round create true (bytes "!--" :: tokens) = .inl <$> readElement create (name :: inside) := by
      simp only [round, if_true, List.head?_cons, hremove]
    rw [elementLoop_named hround]
    apply loop_named hcreate
    · intro n i
      rw [named_comment_iff, hremove]
      simp [eq_comm]
    · intro _
      exact ⟨token, hremove⟩
    · apply hnext
      simp only [List.length_cons] at hinside
      omega

theorem elementLoop_plain (hcreate : Creates create level) {fuel : ℕ} {front : Bytes}
    (hfront : front ≠ bytes "!--") {tokens : Tokens}
    (hnext : ∀ element behind, Continues level tokens behind →
      LoopSpec level behind (elementLoop create true fuel (some element) behind))
    (element : Option Element) :
    LoopSpec level (front :: tokens) (elementLoop create true (fuel + 1) element (front :: tokens)) := by
  have hhead : (front :: tokens).head? ≠ some (bytes "!--") := fun h => hfront (Option.some.inj h)
  have hround : round create true (front :: tokens) = .inl <$> readElement create (front :: tokens) := by
    rw [round, if_pos rfl, if_neg hhead]
  rw [elementLoop_named hround]
  apply loop_named hcreate
  · intro n i
    exact named_plain_iff hfront
  · intro h
    exact absurd h hhead
  · exact hnext

theorem elementLoop_spec (hcreate : Creates create level) {fuel : ℕ} {front : Bytes} {tokens : Tokens}
    (hfuel : tokens.length < fuel) (element : Option Element) :
    LoopSpec level (front :: tokens) (elementLoop create true (fuel + 1) element (front :: tokens)) := by
  induction fuel generalizing element front tokens with
  | zero => omega
  | succ fuel ih =>
    have hnext (inside : Tokens) (hinside : inside.length ≤ tokens.length) (e : Element) (behind : Tokens)
        (hbehind : Continues level inside behind) :
        LoopSpec level behind (elementLoop create true (fuel + 1) (some e) behind) := by
      have hlength := hbehind.length_lt
      obtain ⟨-, -, -, first, hfirst, -⟩ := hbehind
      cases behind with
      | nil => cases hfirst
      | cons first behind =>
        apply ih
        simp only [List.length_cons] at hlength
        omega
    by_cases hcomment : front = bytes "!--"
    · subst hcomment
      exact elementLoop_comment hcreate hnext element
    · exact elementLoop_plain hcreate hcomment (hnext tokens le_rfl) element

end

theorem creates (level : ℕ) : Creates (createElement level true) level := by
  induction level with
  | zero =>
    refine ⟨fun front tokens rest => ?_, fun front tokens fault => ?_⟩
    · have hwhole : ¬ Whole 0 (front :: tokens) rest := by
        intro h
        cases h
      simp [createElement, hwhole]
    · have hcut : ¬ Cut 0 (front :: tokens) := by
        intro h
        cases h
      simp [createElement, hcut]
  | succ level ih =>
    refine ⟨fun front tokens rest => ?_, fun front tokens fault => ?_⟩
    · exact (elementLoop_spec ih (by simp) none).ok rest
    · exact (elementLoop_spec ih (by simp) none).error fault

theorem not_rootCut {level : ℕ} {tokens : Tokens} (h : ∀ name inside, tokens ≠ [60] :: name :: inside) :
    ¬ RootCut level tokens := by
  intro hcut
  cases hcut with
  | comment => exact h _ _ rfl
  | inside => exact h _ _ rfl

theorem rootCut_comment {level : ℕ} {tokens : Tokens} : RootCut level ([60] :: bytes "!--" :: tokens) ↔
    ∃ rest, removeComment (bytes "!--" :: tokens) = some rest ∧ RootCut level rest := by
  constructor
  · intro h
    cases h with
    | comment hremove hcut => exact ⟨_, hremove, hcut⟩
    | inside hne _ => exact absurd rfl hne
  · rintro ⟨rest, hremove, hcut⟩
    exact .comment hremove hcut

theorem rootCut_element {level : ℕ} {name : Bytes} (h : name ≠ bytes "!--") {inside : Tokens} :
    RootCut (level + 1) ([60] :: name :: inside) ↔ CutInside level inside := by
  constructor
  · intro hcut
    cases hcut with
    | comment _ _ => exact absurd rfl h
    | inside _ hinside => exact hinside
  · exact .inside h

theorem not_rootCut_zero (tokens : Tokens) : ¬ RootCut 0 tokens := by
  intro hcut
  generalize hlevel : 0 = level at hcut
  induction hcut with
  | comment _ _ ih => exact ih hlevel
  | inside _ _ => cases hlevel

/-- A round of the root that reads children and does not return is the last one: the next one finds no
bracket. -/
theorem rootLoop_element (level fuel : ℕ) {name : Bytes} (hname : name ≠ bytes "!--") (inside : Tokens)
    (element : Option Element) (fault : Fault) :
    elementLoop (createElement level true) false (fuel + 2) element ([60] :: name :: inside) = .error fault ↔
      fault = .emptyDeque ∧ CutInside level inside := by
  have hround : round (createElement level true) false ([60] :: name :: inside) =
      .inl <$> readElement (createElement level true) (name :: inside) := by
    simp [round, hname]
  obtain ⟨-, hagain, herror⟩ := readElement_spec (creates level) name inside
  have hcut := herror .emptyDeque
  rw [elementLoop_named hround]
  cases hread : readElement (createElement level true) (name :: inside) with
  | error fault' =>
    obtain ⟨rfl, hinside⟩ := (herror fault').mp hread
    simp [Except.bind, hinside, eq_comm]
  | ok read =>
    have hinside : ¬ CutInside level inside := by simpa [hread] using hcut
    cases read with
    | null => simp [Except.bind, proceed, hinside]
    | returned element rest => simp [Except.bind, proceed, hinside]
    | again element behind =>
      obtain ⟨children, -, hchildren, first, hfirst, hne⟩ := (hagain behind).mp ⟨element, hread⟩
      cases behind with
      | nil => cases hfirst
      | cons first' behind =>
        obtain rfl := Option.some.inj hfirst
        have hlast : round (createElement level true) false (first' :: behind) = .ok (.inl .null) := by
          simp [round, hne]
        simp [Except.bind, proceed, elementLoop_null hlast, hinside]

theorem rootLoop_error (level : ℕ) {fuel : ℕ} {tokens : Tokens} (hfuel : tokens.length < fuel)
    (element : Option Element) (fault : Fault) :
    elementLoop (createElement level true) false fuel element tokens = .error fault ↔
      fault = .emptyDeque ∧ RootCut (level + 1) tokens := by
  induction fuel generalizing tokens element with
  | zero => omega
  | succ fuel ih =>
    cases tokens with
    | nil => simp [elementLoop, not_rootCut]
    | cons front tail =>
      by_cases hfront : front = [60]
      · subst hfront
        cases tail with
        | nil =>
          rw [elementLoop_null rfl]
          simp [not_rootCut]
        | cons name inside =>
          simp only [List.length_cons] at hfuel
          by_cases hcomment : name = bytes "!--"
          · subst hcomment
            rw [rootCut_comment]
            rcases hremove : removeComment (bytes "!--" :: inside) with _ | rest
            · rw [elementLoop_null (by simp [round, hremove])]
              simp
            · have hlength := removeComment_length hremove
              have hround : round (createElement level true) false ([60] :: bytes "!--" :: inside) =
                  .ok (.inr rest) := by simp [round, hremove]
              have hnext : elementLoop (createElement level true) false (fuel + 1) element
                  ([60] :: bytes "!--" :: inside) =
                  elementLoop (createElement level true) false fuel element rest := by
                rw [elementLoop, hround]
                rfl
              simp only [List.length_cons] at hlength
              rw [hnext, ih (by omega)]
              simp
          · obtain ⟨fuel, rfl⟩ : ∃ less, fuel = less + 1 := Nat.exists_eq_succ_of_ne_zero (by omega)
            rw [rootCut_element hcomment, rootLoop_element level fuel hcomment]
      · rw [elementLoop_null (by simp [round, hfront])]
        simp [not_rootCut, hfront]

/-- `deserialize` ends, and takes nothing from an empty queue, exactly when the tokens are not cut
off. -/
theorem deserialize_returns_iff (input : Bytes) (level : ℕ) :
    (∃ result, deserialize input level = .ok result) ↔ ¬ RootCut level (tokenizer false [] input) := by
  have herror (fault : Fault) : createElement level false (tokenizer false [] input) = .error fault ↔
      fault = .emptyDeque ∧ RootCut level (tokenizer false [] input) := by
    cases level with
    | zero =>
      have hcut : ¬ RootCut 0 (tokenizer false [] input) := not_rootCut_zero _
      simp [createElement, hcut]
    | succ level => exact rootLoop_error level (Nat.lt_succ_self _) none fault
  rw [deserialize]
  cases hresult : createElement level false (tokenizer false [] input) with
  | error fault =>
    obtain ⟨-, hcut⟩ := (herror fault).mp hresult
    simp [bind, Except.bind, hcut]
  | ok result =>
    have hcut : ¬ RootCut level (tokenizer false [] input) := by
      intro hcut
      cases hresult.symm.trans ((herror .emptyDeque).mpr ⟨rfl, hcut⟩)
    simp [bind, Except.bind, pure, Except.pure, hcut]

/-- The text ends behind an attribute. -/
theorem attribute_cut : ¬ ∃ result, deserialize (bytes "<a x=\"1\"") 1 = .ok result := by
  have hfault : deserialize (bytes "<a x=\"1\"") 1 = .error .emptyDeque := by rfl
  rintro ⟨result, hresult⟩
  cases hfault.symm.trans hresult

end Sese.Xml
