import Sese.Config.YamlStreamify

/-!
# The lines of a tree

The queue that `parse` reads from the rows of a tree. When the rows are aligned, each line has two
spaces for its level.
-/
namespace Sese.Yaml

open Foundation
open Json (Tokens)

variable {δ : Type}

mutual

/-- The rows that begin with spaces begin with two for each level: there are less than 1024 of them,
and the counter of a dictionary behind a mark does not come to a first member again before the
prefix flag is set. The indentation of a container in a list fits an `int`. -/
def Aligned (level : ℕ) (prefixed : Bool) : Value δ → Prop
  | .list values => (prefixed ∨ 1 < values.length → level < 512) ∧ ElementsAligned level values
  | .dict members => (prefixed ∨ 1 < members.length → level < 512) ∧
      (prefixed ∨ members.length ≤ 2 ^ 32 ∨ ∃ e ∈ members.take (2 ^ 32), e.2.isContainer) ∧
      MembersAligned level members
  | _ => True

def ElementsAligned (level : ℕ) : List (Value δ) → Prop
  | [] => True
  | value :: values => (value.isContainer → 2 * level + 2 < 2 ^ 31) ∧ Aligned (level + 1) false value ∧
      ElementsAligned level values

def MembersAligned (level : ℕ) : List (Bytes × Value δ) → Prop
  | [] => True
  | (_, value) :: members => Aligned (level + 1) true value ∧ MembersAligned level members

end

theorem ElementsAligned.element {level : ℕ} {values : List (Value δ)} (h : ElementsAligned level values)
    {v : Value δ} (hv : v ∈ values) : Aligned (level + 1) false v := by
  induction values with
  | nil => cases hv
  | cons w values ih =>
    rcases List.mem_cons.mp hv with rfl | hv
    · exact h.2.1
    · exact ih h.2.2 hv

theorem MembersAligned.member {level : ℕ} {members : List (Bytes × Value δ)}
    (h : MembersAligned level members) {e : Bytes × Value δ} (he : e ∈ members) :
    Aligned (level + 1) true e.2 := by
  induction members with
  | nil => cases he
  | cons a members ih =>
    rcases List.mem_cons.mp he with rfl | he
    · exact h.1
    · exact ih h.2 he

theorem Aligned.level_lt {value : Value δ} {level : ℕ} (h : Aligned level true value)
    (hcontainer : value.isContainer) : level < 512 := by
  cases value with
  | list values => exact h.1 (.inl rfl)
  | dict members => exact h.1 (.inl rfl)
  | _ => cases hcontainer

/-- Every member from the counter on is written with spaces. -/
def Spaced (count : ℕ) (prefixed : Bool) (members : List (Bytes × Value δ)) : Prop :=
  prefixed ∨ 1 ≤ count ∧
    (count + members.length ≤ 2 ^ 32 ∨ ∃ e ∈ members.take (2 ^ 32 - count), e.2.isContainer)

theorem Spaced.next {count : ℕ} {prefixed : Bool} {e : Bytes × Value δ}
    {members : List (Bytes × Value δ)} (h : Spaced count prefixed (e :: members))
    (hcount : count < 2 ^ 32) :
    members = [] ∨ Spaced ((count + 1) % 2 ^ 32) (prefixed || e.2.isContainer) members := by
  rcases h with hprefixed | ⟨hpos, h⟩
  · exact .inr (.inl (by rw [hprefixed, Bool.true_or]))
  · by_cases hcontainer : e.2.isContainer
    · exact .inr (.inl (by rw [hcontainer, Bool.or_true]))
    · rcases h with hlength | ⟨a, ha, hacontainer⟩
      · rw [List.length_cons] at hlength
        rcases Nat.lt_or_ge (count + 1) (2 ^ 32) with hlt | hge
        · rw [Nat.mod_eq_of_lt hlt]
          exact .inr (.inr ⟨by omega, .inl (by omega)⟩)
        · exact .inl (List.length_eq_zero_iff.mp (by omega))
      · obtain ⟨k, hk⟩ : ∃ k, 2 ^ 32 - count = k + 1 := ⟨2 ^ 32 - count - 1, by omega⟩
        rw [hk, List.take_succ_cons] at ha
        rcases List.mem_cons.mp ha with rfl | ha
        · exact absurd hacontainer hcontainer
        · have hkpos : k ≠ 0 := by
            rintro rfl
            simp at ha
          rw [Nat.mod_eq_of_lt (by omega)]
          refine .inr (.inr ⟨by omega, .inr ⟨a, ?_, hacontainer⟩⟩)
          rwa [show 2 ^ 32 - (count + 1) = k by omega]

def Opens (tokens : Tokens) : Value δ → Prop
  | .list _ => ∃ second others, tokens = [45] :: second :: others ∧ second ≠ [58]
  | .dict _ => ∃ key others, tokens = key :: [58] :: others ∧ others.length ≤ 1 ∧ Word key
  | _ => ∃ first others, tokens = first :: others ∧ first ≠ [58]

theorem Opens.cons {tokens : Tokens} {value : Value δ} (h : Opens tokens value) :
    ∃ first others, tokens = first :: others ∧ first ≠ [58] := by
  cases value with
  | list _ =>
    obtain ⟨second, others, rfl, -⟩ := h
    exact ⟨_, _, rfl, by decide⟩
  | dict _ =>
    obtain ⟨key, others, rfl, -, hkey⟩ := h
    refine ⟨key, _, rfl, ?_⟩
    rintro rfl
    exact absurd (hkey.octets 58 List.mem_cons_self) (by decide)
  | _ => exact h

variable [Strtod δ]

/-- The row is a line of its own, and its text begins behind the spaces. -/
structure Clean (row : Row) : Prop where
  room : row.1 < 2 ^ 31
  ne_nil : row.2 ≠ []
  head : ∀ b ∈ row.2.head?, b ≠ 32
  ends : ∀ b ∈ row.2, b ≠ 13 ∧ b ≠ 10

def lineOf (row : Row) : Line := (row.1, tokenizer .between row.2)

theorem textLines_append {line : Bytes} (h : ∀ b ∈ line, b ≠ 13 ∧ b ≠ 10) (builder rest : Bytes) :
    textLines builder (line ++ rest) = textLines (builder ++ line) rest := by
  induction line generalizing builder with
  | nil => simp
  | cons b line ih =>
    have hb := h b List.mem_cons_self
    rw [List.cons_append, textLines, if_neg (not_or.mpr hb), ih fun c hc => h c (List.mem_cons_of_mem _ hc)]
    simp

theorem textLines_line {line : Bytes} (hne : line ≠ []) (h : ∀ b ∈ line, b ≠ 13 ∧ b ≠ 10)
    (rest : Bytes) : textLines [] (line ++ 10 :: rest) = line :: textLines [] rest := by
  rw [textLines_append h, List.nil_append, textLines, if_pos (by decide), if_neg hne]

theorem Clean.spaces_eq {row : Row} (h : Clean row) :
    spaces (List.replicate row.1 32 ++ row.2) = row.1 := by
  have htake : (List.replicate row.1 (32 : UInt8) ++ row.2).takeWhile (fun ch => ch = 32) =
      List.replicate row.1 32 := by
    apply takeWhile_append_of_head
    · intro b hb
      exact decide_eq_true (List.eq_of_mem_replicate hb)
    · intro b hb
      simpa using h.head b hb
  rw [spaces, htake, List.length_replicate]

theorem queueOf_unlines {rows : List Row} (h : ∀ row ∈ rows, Clean row) :
    queueOf (textLines [] (unlines rows)) = rows.map lineOf ∧
      Indented (textLines [] (unlines rows)) := by
  induction rows with
  | nil => exact ⟨rfl, trivial⟩
  | cons row rows ih =>
    have hrow := h row List.mem_cons_self
    obtain ⟨hqueue, hindented⟩ := ih fun r hr => h r (List.mem_cons_of_mem _ hr)
    have hne : List.replicate row.1 32 ++ row.2 ≠ [] := by simp [hrow.ne_nil]
    have hends : ∀ b ∈ List.replicate row.1 32 ++ row.2, b ≠ 13 ∧ b ≠ 10 := by
      intro b hb
      rcases List.mem_append.mp hb with hb | hb
      · rw [List.eq_of_mem_replicate hb]
        decide
      · exact hrow.ends b hb
    have hdrop : (List.replicate row.1 32 ++ row.2).drop row.1 = row.2 := by
      rw [List.drop_append_of_le_length (by simp), List.drop_eq_nil_of_le (by simp), List.nil_append]
    rw [unlines_cons, ← List.append_assoc, textLines_line hne hends, queueOf, Indented, hrow.spaces_eq,
      hdrop, if_neg hrow.ne_nil, hqueue]
    exact ⟨rfl, hrow.room, fun _ => hindented⟩

/-- The first line begins with a mark and the spaces of the list. -/
def markLine (spaces : ℕ) : List Line → List Line
  | [] => []
  | (_, tokens) :: lines => (spaces, [45] :: tokens) :: lines

def retab (spaces : ℕ) : List Line → List Line
  | [] => []
  | (_, tokens) :: lines => (spaces, tokens) :: lines

mutual

def lines (level : ℕ) : Value δ → List Line
  | .list values => elementLines level values
  | .dict members => memberLines level members
  | value => [(2 * level, tokenizer .between (basicText value))]

def elementLines (level : ℕ) : List (Value δ) → List Line
  | [] => []
  | value :: values => markLine (2 * level) (lines (level + 1) value) ++ elementLines level values

def memberLines (level : ℕ) : List (Bytes × Value δ) → List Line
  | [] => []
  | (key, value) :: members =>
    (if value.isContainer then (2 * level, [key, [58]]) :: lines (level + 1) value
    else [(2 * level, key :: [58] :: tokenizer .between (basicText value))]) ++
      memberLines level members

end

theorem lines_scalar {value : Value δ} (hscalar : value.isContainer = false) (level : ℕ) :
    lines level value = [(2 * level, tokenizer .between (basicText value))] := by
  cases value with
  | list _ => cases hscalar
  | dict _ => cases hscalar
  | _ => rw [lines.eq_def]

theorem lines_word {value : Value δ} (hplain : Plain value) (hnonneg : Nonneg value)
    (hscalar : value.isContainer = false) (level : ℕ) :
    lines level value = [(2 * level, [basicText value])] ∧ basicText value ≠ [58] := by
  have htoken := (scalar_text hplain hnonneg hscalar).1
  refine ⟨by rw [lines_scalar hscalar, htoken.tokenizer_eq], fun heq => ?_⟩
  rw [heq] at htoken
  exact htoken.octets 58 List.mem_cons_self (by decide)

theorem lines_cons {value : Value δ} (h : value.All Plain) (hnonneg : value.All Nonneg) (level : ℕ) :
    ∃ tokens others, lines level value = (2 * level, tokens) :: others ∧ Opens tokens value := by
  induction value using Value.tree_induction generalizing level with
  | list values ih =>
    obtain ⟨v, vs, rfl⟩ := List.exists_cons_of_ne_nil h.self
    obtain ⟨tokens, others, hlines, hopens⟩ := ih v List.mem_cons_self
      (h.element List.mem_cons_self) (hnonneg.element List.mem_cons_self) (level + 1)
    obtain ⟨first, rest, rfl, hne⟩ := hopens.cons
    refine ⟨[45] :: first :: rest, others ++ elementLines level vs, ?_, first, rest, rfl, hne⟩
    rw [lines, elementLines, hlines]
    rfl
  | dict members ih =>
    obtain ⟨⟨key, value⟩, members, rfl⟩ := List.exists_cons_of_ne_nil h.self.1
    have hkey := h.self.2.2 (key, value) List.mem_cons_self
    rw [lines, memberLines]
    by_cases hcontainer : value.isContainer
    · rw [if_pos hcontainer]
      exact ⟨_, _, rfl, key, [], rfl, Nat.zero_le _, hkey⟩
    · rw [Bool.not_eq_true] at hcontainer
      have htoken := (scalar_text (h.member List.mem_cons_self).self
        (hnonneg.member List.mem_cons_self).self hcontainer).1
      rw [hcontainer, htoken.tokenizer_eq]
      exact ⟨_, _, rfl, key, [basicText value], rfl, le_rfl, hkey⟩
  | null =>
    obtain ⟨hlines, hne⟩ := lines_word h.self hnonneg.self rfl level
    exact ⟨_, [], hlines, _, _, rfl, hne⟩
  | bool b =>
    obtain ⟨hlines, hne⟩ := lines_word h.self hnonneg.self rfl level
    exact ⟨_, [], hlines, _, _, rfl, hne⟩
  | int i =>
    obtain ⟨hlines, hne⟩ := lines_word h.self hnonneg.self rfl level
    exact ⟨_, [], hlines, _, _, rfl, hne⟩
  | string s =>
    obtain ⟨hlines, hne⟩ := lines_word h.self hnonneg.self rfl level
    exact ⟨_, [], hlines, _, _, rfl, hne⟩
  | double d => exact h.self.elim
  | blob s => exact h.self.elim

theorem map_mark (spaces : ℕ) (rows : List Row) :
    (mark spaces rows).map lineOf = markLine spaces (rows.map lineOf) := by
  cases rows with
  | nil => rfl
  | cons row rows => rfl

theorem markLine_retab (spaces spaces' : ℕ) (lines : List Line) :
    markLine spaces (retab spaces' lines) = markLine spaces lines := by
  cases lines with
  | nil => rfl
  | cons line lines => rfl

theorem indent_eq {count level : ℕ} {prefixed : Bool} (h : count ≠ 1 ∨ prefixed) (hlevel : level < 512) :
    indent count level prefixed = 2 * level := by
  rw [indent, if_pos h]
  omega

/-- The rows of a value are its lines, but for the spaces in front of the first one. -/
def Lined (value : Value δ) : Prop :=
  ∀ level prefixed, Aligned level prefixed value → (value.isContainer → level < 2 ^ 30) →
    retab (2 * level) ((rows level prefixed value).map lineOf) = lines level value

theorem lined_scalar {value : Value δ} (hscalar : value.isContainer = false) : Lined value := by
  intro level prefixed _ _
  rw [rows_scalar hscalar, lines_scalar hscalar]
  rfl

/-- The lines of an entry, whose level is counted in 32 bits. -/
theorem Lined.child {value : Value δ} (h : Lined value) {level : ℕ} {prefixed : Bool}
    (haligned : Aligned (level + 1) prefixed value) (hlevel : value.isContainer → level + 1 < 2 ^ 30) :
    retab (2 * (level + 1)) ((rows ((level + 1) % 2 ^ 32) prefixed value).map lineOf) =
      lines (level + 1) value := by
  by_cases hcontainer : value.isContainer
  · have hlt := hlevel hcontainer
    rw [Nat.mod_eq_of_lt (by omega)]
    exact h (level + 1) prefixed haligned hlevel
  · rw [Bool.not_eq_true] at hcontainer
    have hlined := h (level + 1) prefixed haligned hlevel
    rw [rows_scalar hcontainer] at hlined ⊢
    exact hlined

theorem markLine_rows {value : Value δ} (h : Lined value) {level : ℕ}
    (haligned : Aligned (level + 1) false value) (hroom : value.isContainer → 2 * level + 2 < 2 ^ 31)
    (spaces : ℕ) :
    (mark spaces (rows ((level + 1) % 2 ^ 32) false value)).map lineOf =
      markLine spaces (lines (level + 1) value) := by
  have hchild := h.child haligned fun hcontainer => by have hlt := hroom hcontainer; omega
  rw [map_mark, ← hchild, markLine_retab]

theorem elementRows_lines {values : List (Value δ)} (h : ∀ v ∈ values, Lined v) {level count : ℕ}
    (haligned : ElementsAligned level values) (hlevel : values ≠ [] → level < 512)
    (hcount : 1 ≤ count) (hlt : count + values.length < 2 ^ 32) (prefixed : Bool) :
    (elementRows level count prefixed values).map lineOf = elementLines level values := by
  induction values generalizing count prefixed with
  | nil => rfl
  | cons v values ih =>
    obtain ⟨hroom, hv, hvalues⟩ := haligned
    rw [List.length_cons] at hlt
    have hnext : (count + 1) % 2 ^ 32 = count + 1 := Nat.mod_eq_of_lt (by omega)
    have hindent : indent (count + 1) level prefixed = 2 * level :=
      indent_eq (.inl (by omega)) (hlevel (List.cons_ne_nil _ _))
    rw [elementRows, elementLines, hnext, List.map_append, hindent,
      markLine_rows (h v List.mem_cons_self) hv hroom,
      ih (fun w hw => h w (List.mem_cons_of_mem _ hw)) hvalues
        (fun _ => hlevel (List.cons_ne_nil _ _)) (by omega) (by omega)]

def memberLine (level : ℕ) (key : Bytes) (value : Value δ) : List Line :=
  if value.isContainer then (2 * level, [key, [58]]) :: lines (level + 1) value
  else [(2 * level, key :: [58] :: tokenizer .between (basicText value))]

theorem Lined.prefixed {value : Value δ} (h : Lined value) (hplain : value.All Plain)
    (hcontainer : value.isContainer) {level : ℕ} (haligned : Aligned level true value) :
    (rows level true value).map lineOf = lines level value := by
  have hlevel := haligned.level_lt hcontainer
  have hlined := h level true haligned fun _ => by omega
  obtain ⟨text, others, hrows⟩ := rows_cons hplain level true
  rw [if_pos hcontainer, indent_eq (.inr rfl) hlevel] at hrows
  rw [hrows] at hlined ⊢
  exact hlined

def memberRow (spaces level : ℕ) (key : Bytes) (value : Value δ) : List Row :=
  if value.isContainer then (spaces, key ++ [58, 32]) :: rows ((level + 1) % 2 ^ 32) true value
  else [(spaces, key ++ 58 :: 32 :: basicText value)]

/-- Only the spaces of the key may be wrong. -/
theorem memberRow_lines {value : Value δ} (h : Lined value) (hplain : value.All Plain) {key : Bytes}
    (hkey : Word key) {level : ℕ} (hlevel : level < 2 ^ 30) (haligned : Aligned (level + 1) true value)
    (spaces : ℕ) :
    (memberRow spaces level key value).map lineOf = retab spaces (memberLine level key value) := by
  have hlong : (level + 1) % 2 ^ 32 = level + 1 := Nat.mod_eq_of_lt (by omega)
  rw [memberRow, memberLine, hlong]
  by_cases hvalue : value.isContainer
  · rw [if_pos hvalue, if_pos hvalue, List.map_cons, h.prefixed hplain hvalue haligned, lineOf,
      hkey.token.tokenizer_key []]
    rfl
  · rw [if_neg hvalue, if_neg hvalue, List.map_singleton, lineOf, hkey.token.tokenizer_key]
    rfl

theorem retab_memberLine (level : ℕ) (key : Bytes) (value : Value δ) :
    retab (2 * level) (memberLine level key value) = memberLine level key value := by
  rw [memberLine]
  split_ifs
  · rfl
  · rfl

theorem memberRows_cons (level count : ℕ) (prefixed : Bool) (key : Bytes) (value : Value δ)
    (members : List (Bytes × Value δ)) :
    memberRows level count prefixed ((key, value) :: members) =
      memberRow (indent ((count + 1) % 2 ^ 32) level prefixed) level key value ++
        memberRows level ((count + 1) % 2 ^ 32) (prefixed || value.isContainer) members := by
  rw [memberRows, memberRow]

theorem memberLines_cons (level : ℕ) (key : Bytes) (value : Value δ) (members : List (Bytes × Value δ)) :
    memberLines level ((key, value) :: members) = memberLine level key value ++ memberLines level members := by
  rw [memberLines, memberLine]

theorem memberRows_lines {members : List (Bytes × Value δ)}
    (h : ∀ e ∈ members, Lined e.2 ∧ e.2.All Plain ∧ Word e.1) {level count : ℕ} {prefixed : Bool}
    (haligned : MembersAligned level members) (hlevel : members ≠ [] → level < 512)
    (hcount : count < 2 ^ 32) (hspaced : members = [] ∨ Spaced count prefixed members) :
    (memberRows level count prefixed members).map lineOf = memberLines level members := by
  induction members generalizing count prefixed with
  | nil => rfl
  | cons e members ih =>
    obtain ⟨key, value⟩ := e
    obtain ⟨hvalue, hmembers⟩ := haligned
    obtain ⟨hlined, hplain, hkey⟩ := h (key, value) List.mem_cons_self
    have hlow := hlevel (List.cons_ne_nil _ _)
    have hspaced := hspaced.resolve_left (List.cons_ne_nil _ _)
    have hindent : indent ((count + 1) % 2 ^ 32) level prefixed = 2 * level := by
      apply indent_eq _ hlow
      rcases hspaced with hprefixed | ⟨hpos, -⟩
      · exact .inr hprefixed
      · exact .inl (by omega)
    rw [memberRows_cons, memberLines_cons, List.map_append, hindent,
      memberRow_lines hlined hplain hkey (by omega) hvalue, retab_memberLine,
      ih (fun e he => h e (List.mem_cons_of_mem _ he)) hmembers (fun _ => hlow)
        (Nat.mod_lt _ (by decide)) (hspaced.next hcount)]

theorem lined_list {values : List (Value δ)} (hplain : (Value.list values).All Plain)
    (hcounted : (Value.list values).All Counted) (h : ∀ v ∈ values, Lined v) :
    Lined (.list values) := by
  intro level prefixed haligned hlevel
  obtain ⟨v, vs, rfl⟩ := List.exists_cons_of_ne_nil hplain.self
  obtain ⟨hlow, hroom, hv, hvs⟩ := haligned
  have hlength := hcounted.self
  rw [Counted, List.length_cons] at hlength
  have hlow' : vs ≠ [] → level < 512 := by
    intro hne
    have hpos := List.length_pos_of_ne_nil hne
    exact hlow (.inr (by rw [List.length_cons]; omega))
  have hrest := @elementRows_lines δ _ vs
    (fun w hw => h w (List.mem_cons_of_mem _ hw)) level 1 hvs hlow' le_rfl (by omega) (prefixed || v.isContainer)
  obtain ⟨text, others, hrows⟩ := rows_behind_mark (hplain.element List.mem_cons_self)
    ((level + 1) % 2 ^ 32)
  have hmark := markLine_rows (h v List.mem_cons_self) hv hroom (2 * level)
  have hone : (0 + 1) % 2 ^ 32 = 1 := rfl
  rw [hrows] at hmark
  rw [rows, elementRows, lines, elementLines, hone, List.map_append, hrest, hrows, ← hmark]
  rfl

theorem lined_dict {members : List (Bytes × Value δ)} (hplain : (Value.dict members).All Plain)
    (h : ∀ e ∈ members, Lined e.2) : Lined (.dict members) := by
  intro level prefixed haligned hlevel
  obtain ⟨hne, hsorted, hkeys⟩ := hplain.self
  have hmember (e : Bytes × Value δ) (he : e ∈ members) : Lined e.2 ∧ e.2.All Plain ∧ Word e.1 :=
    ⟨h e he, hplain.member he, hkeys e he⟩
  obtain ⟨⟨key, value⟩, members, rfl⟩ := List.exists_cons_of_ne_nil hne
  obtain ⟨hlow, hcount, hv, hvs⟩ := haligned
  have hlow' : members ≠ [] → level < 512 := by
    intro hne
    have hpos := List.length_pos_of_ne_nil hne
    exact hlow (.inr (by rw [List.length_cons]; omega))
  have hspaced : members = [] ∨ Spaced 1 (prefixed || value.isContainer) members := by
    right
    rcases hcount with hprefixed | hlength | ⟨e, he, hcontainer⟩
    · exact .inl (by rw [hprefixed, Bool.true_or])
    · rw [List.length_cons] at hlength
      exact .inr ⟨le_rfl, .inl (by omega)⟩
    · rw [show 2 ^ 32 = (2 ^ 32 - 1) + 1 by rfl, List.take_succ_cons] at he
      rcases List.mem_cons.mp he with rfl | he
      · exact .inl (by rw [hcontainer, Bool.or_true])
      · exact .inr ⟨le_rfl, .inr ⟨e, he, hcontainer⟩⟩
  have hrest := @memberRows_lines δ _ members (fun e he => hmember e (List.mem_cons_of_mem _ he))
    level 1 (prefixed || value.isContainer) hvs hlow' (by decide) hspaced
  obtain ⟨hlined, hplain', hkey⟩ := hmember (key, value) List.mem_cons_self
  have hfirst := memberRow_lines hlined hplain' hkey (hlevel rfl) hv (indent 1 level prefixed)
  have hone : (0 + 1) % 2 ^ 32 = 1 := rfl
  rw [rows, lines, memberRows_cons, memberLines_cons, hone, List.map_append, hrest, hfirst,
    memberLine]
  split_ifs
  · rfl
  · rfl

/-- Every aligned tree has its lines. -/
theorem lined {value : Value δ} (hplain : value.All Plain) (hcounted : value.All Counted) :
    Lined value := by
  induction value using Value.tree_induction with
  | list values ih =>
    exact lined_list hplain hcounted fun v hv => ih v hv (hplain.element hv) (hcounted.element hv)
  | dict members ih =>
    exact lined_dict hplain fun e he => ih e he (hplain.member he) (hcounted.member he)
  | null => exact lined_scalar rfl
  | bool _ => exact lined_scalar rfl
  | int _ => exact lined_scalar rfl
  | double _ => exact lined_scalar rfl
  | string _ => exact lined_scalar rfl
  | blob _ => exact lined_scalar rfl

end Sese.Yaml
