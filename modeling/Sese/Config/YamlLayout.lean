import Sese.Config.Filling
import Sese.Config.YamlTermination

/-!
# Containers in lines

How a tree of lists and dictionaries is written in lines, and what `parse` makes of them.
-/
namespace Sese.Yaml

open Foundation
open Json (Tokens Waiting)
open Value (fill fill_list_cons fill_dict_cons fill_word emptied setRef)

variable {δ : Type} [Strtod δ]

/-- The first line of a container that is the value of a key: `parse` takes it for a list if the
first token is a mark. -/
def Heads (tokens : Tokens) : Value δ → Prop
  | .list _ => ∃ others, tokens = [45] :: others
  | .dict _ => ∃ key others, tokens = key :: others ∧ key ≠ [45]
  | _ => False

/-- The first line of a container behind the mark of a list. -/
def HeadsInline (tokens : Tokens) : Value δ → Prop
  | .list _ => ∃ second others, tokens = [45] :: second :: others ∧ second ≠ [58]
  | .dict _ => ∃ key others, tokens = key :: [58] :: others ∧ others.length ≤ 1
  | _ => False

mutual

/-- The container is written in these lines, with so many spaces in front of each of its entries. -/
inductive Lays : ℕ → Value δ → List Line → Prop
  | list {spaces : ℕ} {values : List (Value δ)} {lines : List Line} : values ≠ [] →
    ElementsLay spaces values lines → Lays spaces (.list values) lines
  | dict {spaces : ℕ} {members : List (Bytes × Value δ)} {lines : List Line} : members ≠ [] →
    MembersLay spaces members lines → Lays spaces (.dict members) lines

/-- An element that is a container begins on the line of its mark. -/
inductive ElementsLay : ℕ → List (Value δ) → List Line → Prop
  | nil {spaces : ℕ} : ElementsLay spaces [] []
  | null {spaces : ℕ} {values : List (Value δ)} {lines : List Line} :
    ElementsLay spaces values lines →
    ElementsLay spaces (.null :: values) ((spaces, [[45]]) :: lines)
  | word {spaces : ℕ} {values : List (Value δ)} {lines : List Line} (text : Bytes) :
    ElementsLay spaces values lines →
    ElementsLay spaces (parseBasic text :: values) ((spaces, [[45], text]) :: lines)
  | container {spaces : ℕ} {value : Value δ} {values : List (Value δ)} {tokens : Tokens}
    {inside lines : List Line} : spaces + 2 < 2 ^ 31 → HeadsInline tokens value →
    Lays (spaces + 2) value ((spaces + 2, tokens) :: inside) → ElementsLay spaces values lines →
    ElementsLay spaces (value :: values) ((spaces, [45] :: tokens) :: (inside ++ lines))

/-- A value that is a container stands deeper than its key. -/
inductive MembersLay : ℕ → List (Bytes × Value δ) → List Line → Prop
  | nil {spaces : ℕ} : MembersLay spaces [] []
  | null {spaces : ℕ} {members : List (Bytes × Value δ)} {lines : List Line} (key : Bytes) :
    MembersLay spaces members lines →
    MembersLay spaces ((key, .null) :: members) ((spaces, [key, [58]]) :: lines)
  | word {spaces : ℕ} {members : List (Bytes × Value δ)} {lines : List Line} (key text : Bytes) :
    MembersLay spaces members lines →
    MembersLay spaces ((key, parseBasic text) :: members) ((spaces, [key, [58], text]) :: lines)
  | container {spaces deeper : ℕ} {value : Value δ} {members : List (Bytes × Value δ)}
    {tokens : Tokens} {inside lines : List Line} (key : Bytes) : spaces < deeper →
    Heads tokens value → Lays deeper value ((deeper, tokens) :: inside) →
    MembersLay spaces members lines →
    MembersLay spaces ((key, value) :: members)
      ((spaces, [key, [58]]) :: (deeper, tokens) :: (inside ++ lines))

end

/-- The next line does not belong to what has this indentation. -/
def Left (spaces : ℕ) (lines : List Line) : Prop := ∀ line ∈ lines.head?, line.1 < spaces

theorem left_nil (spaces : ℕ) : Left spaces [] := by
  intro line hline
  cases hline

theorem ElementsLay.left {spaces : ℕ} {values : List (Value δ)} {lines rest : List Line}
    (h : ElementsLay spaces values lines) {deeper : ℕ} (hlt : spaces < deeper)
    (hrest : Left spaces rest) : Left deeper (lines ++ rest) := by
  intro line hline
  cases h with
  | nil => exact (hrest line hline).trans hlt
  | null _ =>
    obtain rfl := Option.some.inj hline
    exact hlt
  | word _ _ =>
    obtain rfl := Option.some.inj hline
    exact hlt
  | container _ _ _ _ =>
    obtain rfl := Option.some.inj hline
    exact hlt

theorem MembersLay.left {spaces : ℕ} {members : List (Bytes × Value δ)} {lines rest : List Line}
    (h : MembersLay spaces members lines) {deeper : ℕ} (hlt : spaces < deeper)
    (hrest : Left spaces rest) : Left deeper (lines ++ rest) := by
  intro line hline
  cases h with
  | nil => exact (hrest line hline).trans hlt
  | null _ _ =>
    obtain rfl := Option.some.inj hline
    exact hlt
  | word _ _ _ =>
    obtain rfl := Option.some.inj hline
    exact hlt
  | container _ _ _ _ _ =>
    obtain rfl := Option.some.inj hline
    exact hlt

theorem parseBasic_ne_container (text : Bytes) : (parseBasic text : Value δ).isContainer = false := by
  rw [parseBasic]
  split_ifs
  · rfl
  · rfl
  · rfl
  · dsimp only
    split_ifs <;> rfl
  · dsimp only
    split_ifs <;> rfl

/-- What the parser comes to when the container on top of its stack is finished. -/
def Resumes (stack : List (Waiting δ × ℕ)) (filled : Value δ) (rest : List Line)
    (result : Value δ) : Prop :=
  match stack with
  | [] => filled = result
  | (parent, count) :: stack =>
    Delivers (flatten turn) ⟨parent.resume filled, some count, stack, rest⟩ result

theorem delivers_leave {s : State δ} {filled result : Value δ} {rest : List Line}
    (h : turn s = .ok (s.leave filled rest)) (hresumes : Resumes s.stack filled rest result) :
    Delivers (flatten turn) s result := by
  obtain ⟨top, count, stack, lines⟩ := s
  cases stack with
  | nil =>
    obtain rfl := hresumes
    exact .done (flatten_left h)
  | cons waiting stack => exact .more (flatten_left h) hresumes

/-- A count of -1 becomes that of the first line. -/
theorem delivers_first {top result : Value δ} {stack : List (Waiting δ × ℕ)} {line : Line}
    {lines : List Line}
    (h : Delivers (flatten turn) ⟨top, some line.1, stack, line :: lines⟩ result) :
    Delivers (flatten turn) ⟨top, none, stack, line :: lines⟩ result := by
  have hturn : flatten turn ⟨top, none, stack, line :: lines⟩ =
      flatten turn ⟨top, some line.1, stack, line :: lines⟩ := by
    cases top <;> rfl
  cases h with
  | done hround => exact .done (hturn.trans hround)
  | more hround h => exact .more (hturn.trans hround) h

/-- The container on top is finished when the next line is left of it. -/
theorem turn_leave {value : Value δ} (hcontainer : value.isContainer) {spaces : ℕ}
    {lines : List Line} (h : Left spaces lines) (stack : List (Waiting δ × ℕ)) :
    turn ⟨value, some spaces, stack, lines⟩ =
      .ok (State.leave ⟨value, some spaces, stack, lines⟩ value lines) := by
  cases value with
  | list values =>
    cases lines with
    | nil => rfl
    | cons line lines => exact if_pos (h line rfl)
  | dict members =>
    cases lines with
    | nil => rfl
    | cons line lines =>
      have hlt := h line rfl
      exact (if_neg hlt.ne').trans (if_pos hlt)
  | _ => cases hcontainer

variable {spaces : ℕ} (stack : List (Waiting δ × ℕ)) (rest : List Line)

theorem visits_nullElement (values : List (Value δ)) :
    Visits (flatten turn) ⟨.list values, some spaces, stack, (spaces, [[45]]) :: rest⟩
      ⟨.list (values ++ [.null]), some spaces, stack, rest⟩ := by
  apply Visits.step
  apply flatten_again
  exact (if_neg (lt_irrefl spaces)).trans (if_pos rfl)

theorem visits_word (text : Bytes) (values : List (Value δ)) :
    Visits (flatten turn) ⟨.list values, some spaces, stack, (spaces, [[45], text]) :: rest⟩
      ⟨.list (values ++ [parseBasic text]), some spaces, stack, rest⟩ := by
  apply Visits.step
  apply flatten_again
  exact (if_neg (lt_irrefl spaces)).trans (if_pos rfl)

theorem visits_nested (hroom : spaces + 2 < 2 ^ 31) {tokens : Tokens} {value : Value δ}
    (hheads : HeadsInline tokens value) (values : List (Value δ)) :
    Visits (flatten turn) ⟨.list values, some spaces, stack, (spaces, [45] :: tokens) :: rest⟩
      ⟨emptied value, none, (.list values, spaces) :: stack, (spaces + 2, tokens) :: rest⟩ := by
  apply Visits.step
  apply flatten_left
  refine (if_neg (lt_irrefl spaces)).trans ((if_pos rfl).trans ?_)
  cases value with
  | list values =>
    obtain ⟨second, others, rfl, hne⟩ := hheads
    exact (if_neg fun h => hne h.2).trans ((if_pos rfl).trans (if_pos hroom))
  | dict members =>
    obtain ⟨key, others, rfl, hle⟩ := hheads
    exact (if_pos ⟨hle, rfl⟩).trans (if_pos hroom)
  | _ => exact hheads.elim

theorem visits_pair (key text : Bytes) (members : List (Bytes × Value δ)) :
    Visits (flatten turn) ⟨.dict members, some spaces, stack, (spaces, [key, [58], text]) :: rest⟩
      ⟨.dict (Value.set members key (parseBasic text)), some spaces, stack, rest⟩ := by
  apply Visits.step
  apply flatten_again
  exact (if_pos rfl).trans (if_neg fun h => h rfl)

/-- A member that is a container goes on with what the key has. -/
theorem visits_key {deeper : ℕ} (hlt : spaces < deeper) {tokens : Tokens} {value : Value δ}
    (hheads : Heads tokens value) (key : Bytes) (members : List (Bytes × Value δ)) :
    Visits (flatten turn)
      ⟨.dict members, some spaces, stack, (spaces, [key, [58]]) :: (deeper, tokens) :: rest⟩
      ⟨setRef members key (emptied value), none, (.dict members key, spaces) :: stack,
        (deeper, tokens) :: rest⟩ := by
  have hkey (child : Value δ) (first : Bytes) (others : Tokens)
      (hchild : (if first = [45] then Value.list [] else .dict []) = child) :
      parseKey ⟨.dict members, some spaces, stack,
          (spaces, [key, [58]]) :: (deeper, first :: others) :: rest⟩
        spaces members key ((deeper, first :: others) :: rest) =
      .ok (.inr (.inl ⟨setRef members key child, none, (.dict members key, spaces) :: stack,
        (deeper, first :: others) :: rest⟩)) := by
    rw [parseKey, if_neg hlt.ne', if_neg hlt.not_gt, hchild]
    rfl
  apply Visits.step
  apply flatten_left
  refine (if_pos rfl).trans ?_
  cases value with
  | list values =>
    obtain ⟨others, rfl⟩ := hheads
    exact hkey _ _ _ (if_pos rfl)
  | dict members =>
    obtain ⟨first, others, rfl, hne⟩ := hheads
    exact hkey _ _ _ (if_neg hne)
  | _ => exact hheads.elim

theorem delivers_nullMember {spaces : ℕ} {acc members : List (Bytes × Value δ)} {lines : List Line}
    (h : MembersLay spaces members lines) (key : Bytes) {stack : List (Waiting δ × ℕ)}
    {rest : List Line} (hrest : Left spaces rest) {filled result : Value δ}
    (hfill : fill (.dict (Value.set acc key .null)) (.dict members) = some filled)
    (hresumes : Resumes stack filled rest result)
    (hbehind : Delivers (flatten turn)
      ⟨.dict (Value.set acc key .null), some spaces, stack, lines ++ rest⟩ result) :
    Delivers (flatten turn)
      ⟨.dict acc, some spaces, stack, (spaces, [key, [58]]) :: (lines ++ rest)⟩ result := by
  have hround : turn ⟨.dict acc, some spaces, stack, (spaces, [key, [58]]) :: (lines ++ rest)⟩ =
      parseKey ⟨.dict acc, some spaces, stack, (spaces, [key, [58]]) :: (lines ++ rest)⟩ spaces acc key
        (lines ++ rest) := if_pos rfl
  cases h with
  | nil =>
    have hnil : filled = .dict (Value.set acc key .null) := by
      simpa [fill, Value.fillMembers] using hfill.symm
    subst hnil
    cases rest with
    | nil => exact .more (flatten_again hround) hbehind
    | cons line rest =>
      have hlt := hrest line rfl
      refine delivers_leave (hround.trans ?_) hresumes
      exact (if_neg hlt.ne).trans (if_pos hlt)
  | null _ _ => exact .more (flatten_again (hround.trans (if_pos rfl))) hbehind
  | word _ _ _ => exact .more (flatten_again (hround.trans (if_pos rfl))) hbehind
  | container _ _ _ _ _ => exact .more (flatten_again (hround.trans (if_pos rfl))) hbehind

mutual

theorem Lays.delivers {spaces : ℕ} {start value filled : Value δ} {lines : List Line}
    (h : Lays spaces value lines) (hfill : fill start value = some filled)
    {stack : List (Waiting δ × ℕ)} {rest : List Line} (hrest : Left spaces rest) {result : Value δ}
    (hresumes : Resumes stack filled rest result) :
    Delivers (flatten turn) ⟨start, none, stack, lines ++ rest⟩ result := by
  match h with
  | .list hne helements =>
    obtain ⟨olds, rfl⟩ : ∃ olds, start = .list olds := by
      cases start <;> simp [fill] at hfill ⊢
    have hdelivers := helements.delivers hfill hrest hresumes
    cases helements with
    | nil => exact absurd rfl hne
    | null _ => exact delivers_first hdelivers
    | word _ _ => exact delivers_first hdelivers
    | container _ _ _ _ => exact delivers_first hdelivers
  | .dict hne hmembers =>
    obtain ⟨acc, rfl⟩ : ∃ acc, start = .dict acc := by
      cases start <;> simp [fill] at hfill ⊢
    have hdelivers := hmembers.delivers hfill hrest hresumes
    cases hmembers with
    | nil => exact absurd rfl hne
    | null _ _ => exact delivers_first hdelivers
    | word _ _ _ => exact delivers_first hdelivers
    | container _ _ _ _ _ => exact delivers_first hdelivers

theorem ElementsLay.delivers {spaces : ℕ} {olds values : List (Value δ)} {filled : Value δ}
    {lines : List Line} (h : ElementsLay spaces values lines)
    (hfill : fill (.list olds) (.list values) = some filled) {stack : List (Waiting δ × ℕ)}
    {rest : List Line} (hrest : Left spaces rest) {result : Value δ}
    (hresumes : Resumes stack filled rest result) :
    Delivers (flatten turn) ⟨.list olds, some spaces, stack, lines ++ rest⟩ result := by
  match h with
  | .nil =>
    obtain rfl : filled = .list olds := by simpa [fill, Value.fillElements] using hfill.symm
    exact delivers_leave (turn_leave rfl hrest stack) hresumes
  | .null helements =>
    rw [fill_list_cons, fill_word rfl, Option.bind_some] at hfill
    exact (visits_nullElement stack _ olds).delivers.mpr (helements.delivers hfill hrest hresumes)
  | .word text helements =>
    rw [fill_list_cons, fill_word (parseBasic_ne_container text), Option.bind_some] at hfill
    exact (visits_word stack _ text olds).delivers.mpr (helements.delivers hfill hrest hresumes)
  | .container hroom hheads hlays helements =>
    rw [fill_list_cons] at hfill
    obtain ⟨v, hv, hfill⟩ := Option.bind_eq_some_iff.mp hfill
    rw [List.cons_append, List.append_assoc]
    apply (visits_nested stack _ hroom hheads olds).delivers.mpr
    apply hlays.delivers hv (helements.left (Nat.lt_add_of_pos_right (Nat.zero_lt_two)) hrest)
    exact helements.delivers hfill hrest hresumes

theorem MembersLay.delivers {spaces : ℕ} {acc members : List (Bytes × Value δ)} {filled : Value δ}
    {lines : List Line} (h : MembersLay spaces members lines)
    (hfill : fill (.dict acc) (.dict members) = some filled) {stack : List (Waiting δ × ℕ)}
    {rest : List Line} (hrest : Left spaces rest) {result : Value δ}
    (hresumes : Resumes stack filled rest result) :
    Delivers (flatten turn) ⟨.dict acc, some spaces, stack, lines ++ rest⟩ result := by
  match h with
  | .nil =>
    obtain rfl : filled = .dict acc := by simpa [fill, Value.fillMembers] using hfill.symm
    exact delivers_leave (turn_leave rfl hrest stack) hresumes
  | .null key hmembers =>
    rw [fill_dict_cons, fill_word rfl, Option.bind_some] at hfill
    apply delivers_nullMember hmembers key hrest hfill hresumes
    exact hmembers.delivers hfill hrest hresumes
  | .word key text hmembers =>
    rw [fill_dict_cons, fill_word (parseBasic_ne_container text), Option.bind_some] at hfill
    exact (visits_pair stack _ key text acc).delivers.mpr (hmembers.delivers hfill hrest hresumes)
  | .container key hlt hheads hlays hmembers =>
    rw [fill_dict_cons] at hfill
    obtain ⟨v, hv, hfill⟩ := Option.bind_eq_some_iff.mp hfill
    rw [List.cons_append, List.cons_append, List.append_assoc]
    apply (visits_key stack _ hlt hheads key acc).delivers.mpr
    apply hlays.delivers hv (hmembers.left hlt hrest)
    exact hmembers.delivers hfill hrest hresumes

end

theorem parse_unique {m n : ℕ} {text : Bytes} {v w : Value δ} (h : parse m text = .ok v)
    (h' : parse n text = .ok w) : v = w := by
  have hv := ((parse_eq_iff text v).mp ⟨m, h⟩).2
  have hw := ((parse_eq_iff text w).mp ⟨n, h'⟩).2
  cases hstart : (start (queueOf (textLines [] text)) : State δ ⊕ Value δ) with
  | inl s =>
    rw [hstart] at hv hw
    exact Delivers.unique hv hw
  | inr result =>
    rw [hstart] at hv hw
    exact Eq.trans (Eq.symm hv) hw

/-- The text has the lines of the container and no others. -/
structure Presents (text : Bytes) (value : Value δ) : Prop where
  indented : Indented (textLines [] text)
  lays : ∃ spaces tokens lines, queueOf (textLines [] text) = (spaces, tokens) :: lines ∧
    Heads tokens value ∧ Lays spaces value ((spaces, tokens) :: lines)

/-- `parse` fills an empty container. -/
theorem Presents.parse_eq {text : Bytes} {value filled : Value δ} (h : Presents text value)
    (hfill : fill (emptied value) value = some filled) : ∃ fuel, parse fuel text = .ok filled := by
  obtain ⟨hindented, spaces, tokens, lines, hqueue, hheads, hlays⟩ := h
  have hstart : start ((spaces, tokens) :: lines) =
      .inl ⟨emptied value, none, [], (spaces, tokens) :: lines⟩ := by
    cases value with
    | list values =>
      obtain ⟨others, rfl⟩ := hheads
      rfl
    | dict members =>
      obtain ⟨key, others, rfl, hne⟩ := hheads
      rw [start, if_neg hne]
      rfl
    | _ => exact hheads.elim
  have hresumes : Resumes [] filled [] filled := rfl
  have hdelivers := hlays.delivers hfill (left_nil spaces) hresumes
  rw [List.append_nil] at hdelivers
  rw [parse_eq_iff, hqueue, hstart]
  exact ⟨hindented, hdelivers⟩

end Sese.Yaml
