import Sese.Config.Filling
import Sese.Config.JsonReading
import Sese.Config.JsonText

/-!
# The tree of a document

What `parse` makes of a document, whatever keys its objects have several times: it fills a container
with the tree of the document.
-/
namespace Sese.Json

open Foundation
open Value (fill fillElements fillMembers fill_list_cons fill_dict_cons emptied)

variable {δ : Type} [Double δ]

mutual

/-- The document as it stands, with all members of its objects; `none` if a number in it has no
value. -/
def Doc.tree : Doc → Option (Value δ)
  | .null => some .null
  | .bool b => some (.bool b)
  | .number text => (parseBasic text).toOption
  | .string raw => some (.string raw)
  | .array docs => (elementTrees docs).map .list
  | .object members => (memberTrees members).map .dict

def elementTrees : List Doc → Option (List (Value δ))
  | [] => some []
  | doc :: docs => do
    let tree ← doc.tree
    let trees ← elementTrees docs
    return tree :: trees

def memberTrees : List (Bytes × Doc) → Option (List (Bytes × Value δ))
  | [] => some []
  | (raw, doc) :: members => do
    let tree ← doc.tree
    let trees ← memberTrees members
    return (raw, tree) :: trees

end

theorem Word.isWord {text : Bytes} (h : Word text) : IsWord text := by
  obtain ⟨b, text, rfl⟩ := List.exists_cons_of_ne_nil h.ne_nil
  obtain ⟨hobject, harray, -⟩ := h.first b rfl
  refine ⟨?_, ?_, (h.octets b List.mem_cons_self).1⟩
  · intro heq
    exact hobject (List.cons_eq_cons.mp heq).1
  · intro heq
    exact harray (List.cons_eq_cons.mp heq).1

theorem isWord_quoted (raw : Bytes) : IsWord (quoted raw) := by
  refine ⟨?_, ?_, rfl⟩
  · intro heq
    exact absurd (List.cons_eq_cons.mp heq).1 (by decide)
  · intro heq
    exact absurd (List.cons_eq_cons.mp heq).1 (by decide)

@[simp] theorem unquoted_quoted (raw : Bytes) : unquoted (quoted raw) = raw := by
  simp [unquoted, quoted]

theorem parseBasic_quoted (raw : Bytes) :
    parseBasic (quoted raw) = (.ok (.string raw) : Except Fault (Value δ)) := by
  have hne (b : UInt8) (text : Bytes) (hb : b ≠ 34) : quoted raw ≠ b :: text := by
    intro heq
    exact hb (List.cons_eq_cons.mp heq).1.symm
  have hvalue : substr (quoted raw) 1 ((quoted raw).length - 2) = .ok raw := by
    rw [substr_name (by simp [quoted]), unquoted_quoted]
  have hnull : quoted raw ≠ bytes "null" := hne 110 _ (by decide)
  have htrue : quoted raw ≠ bytes "true" := hne 116 _ (by decide)
  have hfalse : quoted raw ≠ bytes "false" := hne 102 _ (by decide)
  have hquote : (quoted raw).head? = some 34 := rfl
  rw [parseBasic, if_neg hnull, if_neg htrue, if_neg hfalse, if_pos hquote, hvalue]
  rfl

theorem Elements.text {docs : List Doc} {text : Bytes} (h : Elements docs text) :
    ∀ doc ∈ docs, ∃ text, Text doc text := by
  match h with
  | .last _ htext _ => simpa using ⟨_, htext⟩
  | .cons _ htext _ hdocs => simpa using ⟨⟨_, htext⟩, hdocs.text⟩

theorem Members.text {members : List (Bytes × Doc)} {text : Bytes} (h : Members members text) :
    ∀ e ∈ members, ∃ text, Text e.2 text := by
  match h with
  | .last _ _ _ _ htext _ => simpa using ⟨_, htext⟩
  | .cons _ _ _ _ htext _ hmembers =>
    rw [List.forall_mem_cons]
    exact ⟨⟨_, htext⟩, hmembers.text⟩

theorem Text.elements {docs : List Doc} {text : Bytes} (h : Text (.array docs) text) :
    ∀ doc ∈ docs, ∃ text, Text doc text := by
  cases h with
  | emptyArray _ => simp
  | array hdocs => exact hdocs.text

theorem Text.members {members : List (Bytes × Doc)} {text : Bytes} (h : Text (.object members) text) :
    ∀ e ∈ members, ∃ text, Text e.2 text := by
  cases h with
  | emptyObject _ => simp
  | object hmembers => exact hmembers.text

theorem Text.tokens_cons {doc : Doc} {text : Bytes} (h : Text doc text) :
    ∃ token tail, doc.tokens = token :: tail ∧ isKeyword token = false ∧ ∀ b ∈ tail.head?, b ≠ [58] := by
  have hquoted (raw : Bytes) (b : UInt8) : quoted raw ≠ [b] := by simp [quoted]
  cases h with
  | null => exact ⟨_, _, rfl, rfl, by simp⟩
  | bool b => exact ⟨_, _, rfl, by cases b <;> rfl, by simp⟩
  | number hword => exact ⟨_, _, rfl, hword.isWord.keyword, by simp⟩
  | string _ => exact ⟨_, _, rfl, rfl, by simp⟩
  | emptyArray _ => exact ⟨_, _, rfl, rfl, by simp⟩
  | emptyObject _ => exact ⟨_, _, rfl, rfl, by simp⟩
  | @array docs text hdocs =>
    have hfirst : ∃ doc docs', docs = doc :: docs' ∧ ∃ text, Text doc text := by
      cases hdocs with
      | last _ htext _ => exact ⟨_, _, rfl, _, htext⟩
      | cons _ htext _ _ => exact ⟨_, _, rfl, _, htext⟩
    obtain ⟨doc, docs', rfl, inner, htext⟩ := hfirst
    refine ⟨[91], _, by rw [Doc.tokens], rfl, ?_⟩
    obtain ⟨token, tail, htokens, hkeyword, -⟩ := htext.tokens_cons
    rw [htokens]
    rintro b hb rfl
    obtain rfl := Option.some.inj hb
    cases hkeyword
  | @object members text hmembers =>
    cases hmembers with
    | last => exact ⟨_, _, by rw [Doc.tokens], rfl, by simpa using hquoted _ _⟩
    | cons => exact ⟨_, _, by rw [Doc.tokens], rfl, by simpa using hquoted _ _⟩

theorem read_finishes_iff {top final : Value δ} {tokens rest final' : Tokens}
    (h : Finishes top tokens rest) : Read top tokens final final' ↔ final = top ∧ final' = rest := by
  constructor
  · intro hread
    exact hread.unique (.finishes h)
  · rintro ⟨rfl, rfl⟩
    exact .finishes h

theorem read_word_iff {top final : Value δ} {tokens tail final' : Tokens} {place : Waiting δ}
    {token : Bytes} (hplace : Place top tokens place token tail) (hword : IsWord token) :
    Read top tokens final final' ↔
      ∃ v, parseBasic token = .ok v ∧ Read (place.resume v) tail final final' := by
  constructor
  · intro hread
    cases hread with
    | finishes hfinishes => exact absurd hfinishes hplace.not_finishes
    | word hplace' _ hbasic hbehind =>
      obtain ⟨rfl, rfl, rfl⟩ := hplace.unique hplace'
      exact ⟨_, hbasic, hbehind⟩
    | container hplace' hopens _ _ =>
      obtain ⟨rfl, rfl, rfl⟩ := hplace.unique hplace'
      exact absurd hword hopens.not_word
  · rintro ⟨v, hbasic, hbehind⟩
    exact .word hplace hword hbasic hbehind

theorem read_container_iff {top empty final : Value δ} {tokens inside final' : Tokens}
    {place : Waiting δ} {token : Bytes} (hplace : Place top tokens place token inside)
    (hopens : Opens token empty) :
    Read top tokens final final' ↔
      ∃ child behind, Read (place.child empty) inside child behind ∧
        Read (place.resume child) behind final final' := by
  constructor
  · intro hread
    cases hread with
    | finishes hfinishes => exact absurd hfinishes hplace.not_finishes
    | word hplace' hword _ _ =>
      obtain ⟨rfl, rfl, rfl⟩ := hplace.unique hplace'
      exact absurd hword hopens.not_word
    | container hplace' hopens' hinside hbehind =>
      obtain ⟨rfl, rfl, rfl⟩ := hplace.unique hplace'
      obtain rfl := hopens.unique hopens'
      exact ⟨_, _, hinside, hbehind⟩
  · rintro ⟨child, behind, hinside, hbehind⟩
    exact .container hplace hopens hinside hbehind

theorem not_read_word {top : Value δ} (h : top.isContainer = false) (tokens : Tokens) (final : Value δ)
    (final' : Tokens) : ¬ Read top tokens final final' := by
  have hplace {place : Waiting δ} {token : Bytes} {tail : Tokens} :
      ¬ Place top tokens place token tail := by
    intro hplace
    cases hplace <;> cases h
  intro hread
  cases hread with
  | finishes hfinishes => cases hfinishes <;> cases h
  | word h' _ _ _ => exact hplace h'
  | container h' _ _ _ => exact hplace h'

/-- A dictionary has a colon behind each name. -/
theorem not_read_unnamed {token : Bytes} {tokens : Tokens} (hkeyword : isKeyword token = false ∨ token = [93])
    (hcolon : ∀ b ∈ tokens.head?, b ≠ [58]) (members : List (Bytes × Value δ)) (final : Value δ)
    (final' : Tokens) : ¬ Read (.dict members) (token :: tokens) final final' := by
  have hne (b : UInt8) (hb : isKeyword [b] = true) (hb' : b ≠ 93) : token ≠ [b] := by
    rintro rfl
    rcases hkeyword with hkeyword | heq
    · rw [hb] at hkeyword
      cases hkeyword
    · exact hb' (List.singleton_injective heq)
  have hplace {place : Waiting δ} {word : Bytes} {tail : Tokens} :
      ¬ Place (.dict members) (token :: tokens) place word tail := by
    intro hplace
    cases hplace with
    | member hafter _ =>
      cases hafter with
      | plain _ _ _ => exact hcolon _ rfl rfl
      | comma _ _ => exact hne 44 rfl (by decide) rfl
  intro hread
  cases hread with
  | finishes hfinishes =>
    cases hfinishes
    exact hne 125 rfl (by decide) rfl
  | word h' _ _ _ => exact hplace h'
  | container h' _ _ _ => exact hplace h'

theorem not_read_keyword {token : Bytes} (hkeyword : isKeyword token) (hclosing : token ≠ [93])
    (hcomma : token ≠ [44]) (tokens : Tokens) (values : List (Value δ)) (final : Value δ)
    (final' : Tokens) : ¬ Read (.list values) (token :: tokens) final final' := by
  have hplace {place : Waiting δ} {word : Bytes} {tail : Tokens}
      (hplace : Place (.list values) (token :: tokens) place word tail) : word = token := by
    cases hplace with
    | element hafter =>
      cases hafter with
      | plain _ _ _ => rfl
      | comma _ _ => exact absurd rfl hcomma
  intro hread
  cases hread with
  | finishes hfinishes =>
    cases hfinishes
    exact hclosing rfl
  | word h' hword _ _ =>
    obtain rfl := hplace h'
    rw [hword.keyword] at hkeyword
    cases hkeyword
  | container h' hopens _ _ =>
    obtain rfl := hplace h'
    cases hopens <;> cases hkeyword

omit [Double δ] in
theorem place_member (acc : List (Bytes × Value δ)) {raw token : Bytes} {tokens tail : Tokens}
    (h : After 125 tokens (quoted raw) ([58] :: token :: tail)) :
    Place (.dict acc) tokens (.dict acc raw) token tail := by
  have hplace : Place (.dict acc) tokens (.dict acc (unquoted (quoted raw))) token tail :=
    .member h (by simp [quoted])
  rwa [unquoted_quoted] at hplace

/-- What the parser makes of the document where it comes to it. -/
def ReadAs (δ : Type) [Double δ] (doc : Doc) : Prop :=
  ∀ ⦃top : Value δ⦄ ⦃tokens tail rest : Tokens⦄ ⦃place : Waiting δ⦄ ⦃token : Bytes⦄,
    Place top tokens place token tail → token :: tail = doc.tokens ++ rest →
    (∀ b ∈ rest.head?, b ≠ [58]) → ∀ final final', Read top tokens final final' ↔
      ∃ value, (doc.tree.bind fun tree => fill (place.child (emptied tree)) tree) = some value ∧
        Read (place.resume value) rest final final'

theorem ReadAs.element {doc : Doc} (hdoc : ReadAs δ doc) {docs : List Doc} {values : List (Value δ)}
    {tokens tail rest : Tokens} {token : Bytes} (htokens : doc.tokens = token :: tail)
    (hplace : Place (.list values) tokens (.list values) token (tail ++ (elementTokens docs ++ rest)))
    (hdocs : ∀ (values : List (Value δ)) (final : Value δ) (final' : Tokens),
      Read (.list values) (elementTokens docs ++ rest) final final' ↔ final' = rest ∧
        ((elementTrees docs).bind fun trees => fill (.list values) (.list trees)) = some final)
    (final : Value δ) (final' : Tokens) :
    Read (.list values) tokens final final' ↔ final' = rest ∧
      ((elementTrees (doc :: docs)).bind fun trees => fill (.list values) (.list trees)) = some final := by
  have hcolon : ∀ b ∈ (elementTokens docs ++ rest).head?, b ≠ [58] := by
    cases docs <;> simp [elementTokens]
  rw [hdoc hplace (by rw [htokens, List.cons_append]) hcolon, elementTrees]
  simp only [Waiting.child, Waiting.resume, hdocs]
  cases (doc.tree : Option (Value δ)) with
  | none => simp
  | some tree =>
    cases hfill : fill (emptied tree) tree <;> cases (elementTrees docs : Option (List (Value δ))) <;>
      simp [fill_list_cons, hfill]

theorem read_elements_iff {docs : List Doc} (h : ∀ doc ∈ docs, ReadAs δ doc ∧ ∃ text, Text doc text)
    (rest : Tokens) (values : List (Value δ)) (final : Value δ) (final' : Tokens) :
    Read (.list values) (elementTokens docs ++ rest) final final' ↔ final' = rest ∧
      ((elementTrees docs).bind fun trees => fill (.list values) (.list trees)) = some final := by
  induction docs generalizing values final final' with
  | nil =>
    rw [elementTokens, List.singleton_append, read_finishes_iff (.array values rest)]
    simp [elementTrees, fill, fillElements, and_comm, eq_comm]
  | cons doc docs ih =>
    obtain ⟨⟨hdoc, text, htext⟩, hdocs⟩ := List.forall_mem_cons.mp h
    obtain ⟨token, tail, htail, -, -⟩ := htext.tokens_cons
    apply hdoc.element htail _ (ih hdocs)
    rw [elementTokens, htail]
    simpa using Place.element (After.comma token (tail ++ (elementTokens docs ++ rest)))

theorem ReadAs.member {doc : Doc} (hdoc : ReadAs δ doc) {members : List (Bytes × Doc)} {raw : Bytes}
    {acc : List (Bytes × Value δ)} {tokens tail rest : Tokens} {token : Bytes}
    (htokens : doc.tokens = token :: tail)
    (hplace : Place (.dict acc) tokens (.dict acc raw) token (tail ++ (memberTokens members ++ rest)))
    (hmembers : ∀ (acc : List (Bytes × Value δ)) (final : Value δ) (final' : Tokens),
      Read (.dict acc) (memberTokens members ++ rest) final final' ↔ final' = rest ∧
        ((memberTrees members).bind fun trees => fill (.dict acc) (.dict trees)) = some final)
    (final : Value δ) (final' : Tokens) :
    Read (.dict acc) tokens final final' ↔ final' = rest ∧
      ((memberTrees ((raw, doc) :: members)).bind fun trees => fill (.dict acc) (.dict trees)) = some final := by
  have hcolon : ∀ b ∈ (memberTokens members ++ rest).head?, b ≠ [58] := by
    cases members <;> simp [memberTokens]
  rw [hdoc hplace (by rw [htokens, List.cons_append]) hcolon, memberTrees]
  simp only [Waiting.child, Waiting.resume, hmembers]
  cases (doc.tree : Option (Value δ)) with
  | none => simp
  | some tree =>
    cases hfill : fill (Value.setRef acc raw (emptied tree)) tree <;>
      cases (memberTrees members : Option (List (Bytes × Value δ))) <;> simp [fill_dict_cons, hfill]

theorem read_members_iff {members : List (Bytes × Doc)}
    (h : ∀ e ∈ members, ReadAs δ e.2 ∧ ∃ text, Text e.2 text) (rest : Tokens)
    (acc : List (Bytes × Value δ)) (final : Value δ) (final' : Tokens) :
    Read (.dict acc) (memberTokens members ++ rest) final final' ↔ final' = rest ∧
      ((memberTrees members).bind fun trees => fill (.dict acc) (.dict trees)) = some final := by
  induction members generalizing acc final final' with
  | nil =>
    rw [memberTokens, List.singleton_append, read_finishes_iff (.object acc rest)]
    simp [memberTrees, fill, fillMembers, and_comm, eq_comm]
  | cons e members ih =>
    obtain ⟨raw, doc⟩ := e
    obtain ⟨⟨hdoc, text, htext⟩, hmembers⟩ := List.forall_mem_cons.mp h
    obtain ⟨token, tail, htail, -, -⟩ := htext.tokens_cons
    apply hdoc.member htail _ (ih hmembers)
    rw [memberTokens, htail]
    simpa using place_member acc
      (After.comma (quoted raw) ([58] :: token :: (tail ++ (memberTokens members ++ rest))))

theorem read_array_iff {docs : List Doc} {text : Bytes} (htext : Text (.array docs) text)
    (hdocs : ∀ doc ∈ docs, ReadAs δ doc) {rest : Tokens} (hrest : ∀ b ∈ rest.head?, b ≠ [58]) :
    ∃ inside, (Doc.array docs).tokens = [91] :: inside ∧ ∀ (start final : Value δ) (final' : Tokens),
      Read start (inside ++ rest) final final' ↔ final' = rest ∧
        ((elementTrees docs).bind fun trees => fill start (.list trees)) = some final := by
  have hall : ∀ doc ∈ docs, ReadAs δ doc ∧ ∃ text, Text doc text :=
    fun doc hdoc => ⟨hdocs doc hdoc, htext.elements doc hdoc⟩
  have hlist (values : List (Value δ)) (final : Value δ) (final' : Tokens) :
      Read (.list values) ((Doc.array docs).tokens.tail ++ rest) final final' ↔ final' = rest ∧
        ((elementTrees docs).bind fun trees => fill (.list values) (.list trees)) = some final := by
    cases docs with
    | nil => exact read_elements_iff hall rest values final final'
    | cons doc docs =>
      obtain ⟨⟨hdoc, inner, hinner⟩, hothers⟩ := List.forall_mem_cons.mp hall
      obtain ⟨token, tail, htail, hkeyword, -⟩ := hinner.tokens_cons
      apply hdoc.element htail _ (read_elements_iff hothers rest)
      rw [tokens_array, htail, List.append_assoc]
      refine .element (.plain _ ?_ ?_)
      · rintro rfl
        cases hkeyword
      · rintro rfl
        cases hkeyword
  obtain ⟨token, tail, htokens, hkeyword, hcolon⟩ : ∃ token tail,
      (Doc.array docs).tokens = [91] :: token :: tail ∧
        (isKeyword token = false ∨ token = [93]) ∧ ∀ b ∈ (tail ++ rest).head?, b ≠ [58] := by
    cases docs with
    | nil => exact ⟨_, _, rfl, .inr rfl, hrest⟩
    | cons doc docs =>
      obtain ⟨-, inner, hinner⟩ := hall doc List.mem_cons_self
      obtain ⟨token, tail, htail, hkeyword, hcolon⟩ := hinner.tokens_cons
      refine ⟨token, tail ++ elementTokens docs, by rw [Doc.tokens, htail]; rfl, .inl hkeyword, ?_⟩
      cases tail with
      | nil => cases docs <;> simp [elementTokens]
      | cons b tail => exact hcolon
  rw [htokens] at hlist
  refine ⟨token :: tail, htokens, fun start final final' => ?_⟩
  cases start with
  | list values => exact hlist values final final'
  | dict members =>
    have hnot := not_read_unnamed hkeyword hcolon members final final'
    refine iff_of_false hnot ?_
    simp [fill]
  | _ =>
    refine iff_of_false (not_read_word rfl _ _ _) ?_
    simp [fill]

theorem read_object_iff {members : List (Bytes × Doc)} {text : Bytes}
    (htext : Text (.object members) text) (hmembers : ∀ e ∈ members, ReadAs δ e.2) (rest : Tokens) :
    ∃ inside, (Doc.object members).tokens = [123] :: inside ∧
      ∀ (start final : Value δ) (final' : Tokens), Read start (inside ++ rest) final final' ↔
        final' = rest ∧
          ((memberTrees members).bind fun trees => fill start (.dict trees)) = some final := by
  have hall : ∀ e ∈ members, ReadAs δ e.2 ∧ ∃ text, Text e.2 text :=
    fun e he => ⟨hmembers e he, htext.members e he⟩
  have hquoted (raw : Bytes) (b : UInt8) : quoted raw ≠ [b] := by simp [quoted]
  have hdict (acc : List (Bytes × Value δ)) (final : Value δ) (final' : Tokens) :
      Read (.dict acc) ((Doc.object members).tokens.tail ++ rest) final final' ↔ final' = rest ∧
        ((memberTrees members).bind fun trees => fill (.dict acc) (.dict trees)) = some final := by
    cases members with
    | nil => exact read_members_iff hall rest acc final final'
    | cons e members =>
      obtain ⟨raw, doc⟩ := e
      obtain ⟨⟨hdoc, inner, hinner⟩, hothers⟩ := List.forall_mem_cons.mp hall
      obtain ⟨token, tail, htail, -, -⟩ := hinner.tokens_cons
      apply hdoc.member htail _ (read_members_iff hothers rest)
      rw [tokens_object, htail]
      simpa using place_member acc (After.plain ([58] :: token :: (tail ++ (memberTokens members ++ rest)))
        (hquoted raw 125) (hquoted raw 44))
  have hlist (values : List (Value δ)) (final : Value δ) (final' : Tokens) :
      ¬ Read (.list values) ((Doc.object members).tokens.tail ++ rest) final final' := by
    have hclosing : ([125] : Bytes) ≠ [93] ∧ ([125] : Bytes) ≠ [44] := by decide
    have hcolon : ([58] : Bytes) ≠ [93] ∧ ([58] : Bytes) ≠ [44] := by decide
    cases members with
    | nil => exact not_read_keyword rfl hclosing.1 hclosing.2 rest values final final'
    | cons e members =>
      obtain ⟨raw, doc⟩ := e
      have hafter : After 93 (quoted raw :: [58] :: (doc.tokens ++ memberTokens members ++ rest))
          (quoted raw) ([58] :: (doc.tokens ++ memberTokens members ++ rest)) :=
        .plain _ (hquoted raw 93) (hquoted raw 44)
      have hplace : Place (.list values) _ (.list values) (quoted raw) _ := .element hafter
      rw [tokens_object]
      refine mt (read_word_iff hplace (isWord_quoted raw)).mp ?_
      rintro ⟨v, -, hread⟩
      exact not_read_keyword rfl hcolon.1 hcolon.2 _ _ final final' hread
  obtain ⟨inside, hinside⟩ : ∃ inside, (Doc.object members).tokens = [123] :: inside := by
    cases members with
    | nil => exact ⟨_, rfl⟩
    | cons e members => exact ⟨_, by rw [Doc.tokens]⟩
  rw [hinside] at hdict hlist
  refine ⟨inside, hinside, fun start final final' => ?_⟩
  cases start with
  | dict acc => exact hdict acc final final'
  | list values =>
    refine iff_of_false (hlist values final final') ?_
    simp [fill]
  | _ =>
    refine iff_of_false (not_read_word rfl _ _ _) ?_
    simp [fill]

theorem parseBasic_ne_container {token : Bytes} {value : Value δ} (h : parseBasic token = .ok value) :
    value.isContainer = false := by
  rw [parseBasic] at h
  split_ifs at h
  · cases h
    rfl
  · cases h
    rfl
  · cases h
    rfl
  · obtain ⟨text, -, h⟩ := bind_eq_ok.mp h
    cases h
    rfl
  · obtain ⟨d, -, h⟩ := bind_eq_ok.mp h
    cases h
    rfl
  · obtain ⟨i, -, h⟩ := bind_eq_ok.mp h
    cases h
    rfl

theorem readAs_word {doc : Doc} {token : Bytes} (htokens : doc.tokens = [token]) (hword : IsWord token)
    (htree : doc.tree = (parseBasic token : Except Fault (Value δ)).toOption) : ReadAs δ doc := by
  intro top tokens tail rest place front hplace hfront _ final final'
  rw [htokens] at hfront
  obtain ⟨rfl, rfl⟩ := List.cons_eq_cons.mp hfront
  rw [read_word_iff hplace hword, htree]
  cases hbasic : (parseBasic front : Except Fault (Value δ)) with
  | error fault => simp [Except.toOption]
  | ok value => simp [Except.toOption, Value.fill_word (parseBasic_ne_container hbasic)]

theorem readAs (doc : Doc) {text : Bytes} (htext : Text doc text) : ReadAs δ doc := by
  match doc with
  | .null => exact readAs_word rfl word_null.isWord rfl
  | .bool b => exact readAs_word rfl (word_bool b).isWord (by cases b <;> rfl)
  | .number text =>
    cases htext with
    | number hword => exact readAs_word rfl hword.isWord rfl
  | .string raw => exact readAs_word rfl (isWord_quoted raw) (by rw [parseBasic_quoted]; rfl)
  | .array docs =>
    intro top tokens tail rest place front hplace hfront hrest final final'
    have hdocs : ∀ doc ∈ docs, ReadAs δ doc := by
      intro doc hdoc
      obtain ⟨inner, hinner⟩ := htext.elements doc hdoc
      exact readAs doc hinner
    obtain ⟨inside, hinside, hread⟩ := read_array_iff htext hdocs hrest
    rw [hinside] at hfront
    obtain ⟨rfl, rfl⟩ := List.cons_eq_cons.mp hfront
    rw [read_container_iff hplace .array, Doc.tree]
    simp [hread, emptied, Option.bind_map]
  | .object members =>
    intro top tokens tail rest place front hplace hfront hrest final final'
    have hmembers : ∀ e ∈ members, ReadAs δ e.2 := by
      intro e he
      obtain ⟨inner, hinner⟩ := htext.members e he
      exact readAs e.2 hinner
    obtain ⟨inside, hinside, hread⟩ := read_object_iff htext hmembers rest
    rw [hinside] at hfront
    obtain ⟨rfl, rfl⟩ := List.cons_eq_cons.mp hfront
    rw [read_container_iff hplace .object, Doc.tree]
    simp [hread, emptied, Option.bind_map]
termination_by sizeOf doc
decreasing_by
  · simp_wf
    have hlt := List.sizeOf_lt_of_mem hdoc
    omega
  · simp_wf
    have hlt := List.sizeOf_lt_of_mem he
    obtain ⟨raw, doc⟩ := e
    simp only [Prod.mk.sizeOf_spec] at hlt ⊢
    omega

theorem tokenizer_blank {blank : Bytes} (h : Blank blank) : tokenizer .between blank = some [] := by
  have hscan := scan_blank h []
  rw [List.append_nil] at hscan
  exact hscan

theorem Text.readAs_members {members : List (Bytes × Doc)} {text : Bytes} (h : Text (.object members) text) :
    ∀ e ∈ members, ReadAs δ e.2 := by
  intro e he
  obtain ⟨inner, hinner⟩ := h.members e he
  exact readAs e.2 hinner

/-- `parse` of a text with a document in it, whose root is an array or an object. -/
theorem parse_of_fill {doc : Doc} {before text behind : Bytes} (hbefore : Blank before)
    (htext : Text doc text) (hbehind : Blank behind) (hcontainer : doc.isContainer) {tree value : Value δ}
    (htree : doc.tree = some tree) (hfill : fill (emptied tree) tree = some value) :
    parse (before ++ (text ++ behind)) = .ok value := by
  have hroot : ∃ front inside, doc.tokens = front :: inside ∧ ReadsRoot (front :: inside) value := by
    match doc with
    | .array docs =>
      have hdocs : ∀ doc ∈ docs, ReadAs δ doc := by
        intro doc hdoc
        obtain ⟨inner, hinner⟩ := htext.elements doc hdoc
        exact readAs doc hinner
      have hcolon : ∀ b ∈ ([] : Tokens).head?, b ≠ [58] := by simp
      obtain ⟨inside, hinside, hread⟩ := read_array_iff htext hdocs hcolon
      obtain ⟨trees, htrees, rfl⟩ := Option.map_eq_some_iff.mp htree
      have hall := (hread (.list []) value []).mpr ⟨rfl, by rw [htrees]; exact hfill⟩
      rw [List.append_nil] at hall
      exact ⟨_, inside, hinside, .mk .array hall⟩
    | .object members =>
      obtain ⟨inside, hinside, hread⟩ := read_object_iff htext (htext.readAs_members (δ := δ)) []
      obtain ⟨trees, htrees, rfl⟩ := Option.map_eq_some_iff.mp htree
      have hall := (hread (.dict []) value []).mpr ⟨rfl, by rw [htrees]; exact hfill⟩
      rw [List.append_nil] at hall
      exact ⟨_, inside, hinside, .mk .object hall⟩
  obtain ⟨front, inside, hinside, hroot⟩ := hroot
  have htokens : tokenizer .between (before ++ (text ++ behind)) = some (front :: inside) := by
    rw [scan_blank hbefore, scan_text htext (.inl hcontainer), tokenizer_blank hbehind, hinside]
    simp [found]
  rw [parse, htokens]
  exact hroot.parseTokens_eq

end Sese.Json
