import Sese.Config.XmlRoundTrip

/-!
# Comments in a text

An element is written with comments in front of the root and of the children, and behind the last
child. `deserialize` finds one comment only in front of each child.
-/
namespace Sese.Xml

open Foundation
open Net.Http (byteOrder)
open Json (isSpace Tokens)

abbrev Comment := List Bytes

def Comment.Clean (comment : Comment) : Prop := ∀ word ∈ comment, Word isSpace word ∧ word ≠ bytes "--"

instance (comment : Comment) : Decidable comment.Clean :=
  inferInstanceAs (Decidable (∀ word ∈ comment, Word isSpace word ∧ word ≠ bytes "--"))

/-- An element as it is written with comments. -/
inductive Source where
  | leaf (name value : Bytes) (attributes : OrdMap byteOrder Bytes)
  | parent (name : Bytes) (attributes : OrdMap byteOrder Bytes)
    (children : List (List Comment × Source)) (behind : List Comment)

mutual

def Source.element : Source → Element
  | .leaf name value attributes => { name, value, attributes }
  | .parent name attributes children _ => { name, attributes, elements := elementsOf children }

def elementsOf : List (List Comment × Source) → List Element
  | [] => []
  | (_, source) :: children => source.element :: elementsOf children

end

inductive Source.Written : Source → Prop
  | leaf {name value : Bytes} {attributes : OrdMap byteOrder Bytes} :
    Xml.Written isSpace { name, value, attributes } → Written (.leaf name value attributes)
  | parent {name : Bytes} {attributes : OrdMap byteOrder Bytes}
    {children : List (List Comment × Source)} {behind : List Comment} : Word isSpace name →
    (∀ attr ∈ attributes.entries, Attribute isSpace attr) → children ≠ [] →
    (∀ child ∈ children, ∀ comment ∈ child.1, comment.Clean) →
    (∀ child ∈ children, Written child.2) → (∀ comment ∈ behind, comment.Clean) →
    Written (.parent name attributes children behind)

mutual

/-- No comment follows another one, and none is behind the last child of an element. -/
def Source.sparse : Source → Bool
  | .leaf _ _ _ => true
  | .parent _ _ children behind => behind.isEmpty && sparseAll children

def sparseAll : List (List Comment × Source) → Bool
  | [] => true
  | (comments, source) :: children =>
    decide (comments.length ≤ 1) && source.sparse && sparseAll children

end

/-- `<!-- words -->` -/
def Comment.text (comment : Comment) : Bytes :=
  bytes "<!-- " ++ (comment.flatMap (· ++ [32]) ++ bytes "-->")

mutual

/-- What `serialize` writes, with the comments in it. -/
def Source.text : Source → Bytes
  | .leaf name value attributes => serialize { name, value, attributes }
  | .parent name attributes children behind =>
    60 :: (name ++ attributes.entries.flatMap serializeAttribute ++
      62 :: (textAll children ++ behind.flatMap Comment.text ++ [60, 47] ++ name ++ [62]))

def textAll : List (List Comment × Source) → Bytes
  | [] => []
  | (comments, source) :: children => comments.flatMap Comment.text ++ source.text ++ textAll children

end

/-- The comments in front of something that begins with a bracket, all behind their first bracket. -/
def gapTokens : List Comment → Tokens → Tokens
  | [], tokens => tokens
  | comment :: comments, tokens =>
    bytes "!--" :: (comment ++ bytes "--" :: [62] :: [60] :: gapTokens comments tokens)

mutual

/-- The tokens behind the first bracket, and those that follow. -/
def Source.tokens : Source → Tokens → Tokens
  | .leaf name value attributes, rest => Element.tokens { name, value, attributes } ++ rest
  | .parent name attributes children behind, rest =>
    name :: (attributes.entries.flatMap attributeTokens ++
      [62] :: childTokens children ([60] :: gapTokens behind ([47] :: name :: [62] :: rest)))

def childTokens : List (List Comment × Source) → Tokens → Tokens
  | [], rest => rest
  | (comments, source) :: children, rest =>
    [60] :: gapTokens comments (source.tokens (childTokens children rest))

end

theorem length_le_gapTokens (comments : List Comment) (tokens : Tokens) :
    comments.length + tokens.length ≤ (gapTokens comments tokens).length := by
  induction comments with
  | nil => simp [gapTokens]
  | cons comment comments ih =>
    simp only [gapTokens, List.length_cons, List.length_append]
    omega

mutual

theorem Source.length_le (source : Source) (rest : Tokens) :
    rest.length ≤ (source.tokens rest).length := by
  match source with
  | .leaf name value attributes =>
    rw [Source.tokens, List.length_append]
    exact Nat.le_add_left _ _
  | .parent name attributes children behind =>
    have hgap := length_le_gapTokens behind ([47] :: name :: [62] :: rest)
    have hchildren := length_le_childTokens children
      ([60] :: gapTokens behind ([47] :: name :: [62] :: rest))
    simp only [Source.tokens, List.length_cons, List.length_append] at hgap hchildren ⊢
    omega

theorem length_le_childTokens (children : List (List Comment × Source)) (rest : Tokens) :
    children.length + rest.length ≤ (childTokens children rest).length := by
  match children with
  | [] => simp [childTokens]
  | (comments, source) :: children =>
    have hgap := length_le_gapTokens comments (source.tokens (childTokens children rest))
    have hsource := source.length_le (childTokens children rest)
    have hchildren := length_le_childTokens children rest
    simp only [childTokens, List.length_cons]
    omega

end

theorem scan_comment {comment : Comment} (h : comment.Clean) (rest : Bytes) :
    tokenizer false [] (comment.text ++ rest) =
      [60] :: bytes "!--" :: (comment ++ bytes "--" :: [62] :: tokenizer false [] rest) := by
  have hopening (input : Bytes) : tokenizer false [] (bytes "<!-- " ++ input) =
      [60] :: bytes "!--" :: tokenizer false [] input := rfl
  have hclosing : tokenizer false [] (bytes "-->" ++ rest) =
      bytes "--" :: [62] :: tokenizer false [] rest := rfl
  have hblank (input : Bytes) : tokenizer false [] (32 :: input) = tokenizer false [] input := rfl
  rw [Comment.text, List.append_assoc, hopening, List.append_assoc, ← hclosing]
  congr 2
  induction comment with
  | nil => rfl
  | cons word comment ih =>
    obtain ⟨⟨hword, -⟩, hcomment⟩ := List.forall_mem_cons.mp h
    rw [List.flatMap_cons, List.append_assoc, List.append_assoc,
      scan_word hword ⟨32, rfl, .inl rfl⟩, List.singleton_append, hblank, ih hcomment, List.cons_append]

theorem scan_comments {comments : List Comment} (h : ∀ comment ∈ comments, comment.Clean)
    {rest : Bytes} {tokens : Tokens} (hrest : tokenizer false [] rest = [60] :: tokens) :
    tokenizer false [] (comments.flatMap Comment.text ++ rest) = [60] :: gapTokens comments tokens := by
  induction comments with
  | nil => exact hrest
  | cons comment comments ih =>
    obtain ⟨hcomment, hcomments⟩ := List.forall_mem_cons.mp h
    rw [List.flatMap_cons, List.append_assoc, scan_comment hcomment, ih hcomments, gapTokens]

theorem scan_source {source : Source} (h : source.Written) (rest : Bytes) :
    tokenizer false [] (source.text ++ rest) = [60] :: source.tokens (tokenizer false [] rest) := by
  induction h generalizing rest with
  | leaf hwritten =>
    rw [Source.text, Source.tokens]
    exact scan_serialize hwritten rest
  | @parent name attributes children behind hname hattributes hne hclean hwritten hbehind ih =>
    have hend := scan_comments hbehind (scan_end hname rest)
    have hall (tail : Bytes) : tokenizer false [] (textAll children ++ tail) =
        childTokens children (tokenizer false [] tail) := by
      clear hne hwritten
      induction children with
      | nil =>
        rw [textAll, childTokens]
        rfl
      | cons child children ihChildren =>
        obtain ⟨comments, source⟩ := child
        obtain ⟨hcomments, hclean⟩ := List.forall_mem_cons.mp hclean
        obtain ⟨hsource, ih⟩ := List.forall_mem_cons.mp ih
        rw [textAll, childTokens, List.append_assoc, List.append_assoc,
          scan_comments hcomments (hsource _), ihChildren hclean ih]
    have hcontent : 62 :: (textAll children ++ behind.flatMap Comment.text ++ [60, 47] ++ name ++ [62]) ++ rest =
        62 :: (textAll children ++ (behind.flatMap Comment.text ++ ([60, 47] ++ name ++ [62] ++ rest))) := by
      simp
    rw [Source.text, Source.tokens, List.cons_append, scan_sign (by decide), List.append_assoc, hcontent,
      scan_start hname hattributes ⟨62, rfl, by decide⟩, scan_sign (by decide), hall, hend]
    rfl

theorem removeComment_gap {comment : Comment} (h : comment.Clean) (rest : Tokens) :
    removeComment (bytes "!--" :: (comment ++ bytes "--" :: [62] :: rest)) = some rest := by
  have hwords : ∀ word ∈ comment, decide (word ≠ bytes "--") = true :=
    fun word hword => decide_eq_true (h word hword).2
  have hdrop : (comment ++ bytes "--" :: [62] :: rest).dropWhile (fun token => token ≠ bytes "--") =
      bytes "--" :: [62] :: rest := by
    rw [List.dropWhile_append_of_pos hwords]
    simp
  rw [removeComment, List.tail_cons, hdrop]
  exact if_pos rfl

section

variable {create : Tokens → Except Fault (Option (Element × Tokens))} {level : ℕ}

theorem readElement_null {name token next : Bytes} {tokens : Tokens}
    (htoken : ¬ (token = [62] ∨ token = [47])) (hnext : next ≠ [61]) :
    readElement create (name :: token :: next :: tokens) = .ok .null := by
  have hread : readAttributes .empty (token :: next :: tokens) = .ok none := by
    rw [readAttributes.eq_def]
    dsimp only
    rw [if_neg htoken]
    cases tokens with
    | nil => rfl
    | cons value tokens => exact if_pos hnext
  rw [readElement.eq_def]
  dsimp only
  rw [hread]
  rfl

/-- A comment that is taken for an element. -/
theorem readElement_comment {comment : Comment} (h : comment.Clean) (rest : Tokens) :
    readElement create (bytes "!--" :: (comment ++ bytes "--" :: [62] :: rest)) = .ok .null := by
  cases comment with
  | nil => exact readElement_null (by decide) (by decide)
  | cons word comment =>
    obtain ⟨⟨hword, -⟩, hcomment⟩ := List.forall_mem_cons.mp h
    have hsign : ¬ (word = [62] ∨ word = [47]) :=
      not_or.mpr ⟨hword.ne_sign (by decide), hword.ne_sign (by decide)⟩
    cases comment with
    | nil => exact readElement_null hsign (by decide)
    | cons next comment =>
      exact readElement_null hsign ((hcomment next List.mem_cons_self).1.ne_sign (by decide))

theorem readElement_end {name : Bytes} (h : Word isSpace name) (rest : Tokens) :
    readElement create ([47] :: name :: [62] :: rest) = .ok .null := by
  apply readElement_null _ (by decide)
  exact not_or.mpr ⟨h.ne_sign (by decide), h.ne_sign (by decide)⟩

theorem round_comment {comment : Comment} (h : comment.Clean) (tokens : Tokens) :
    round create true (bytes "!--" :: (comment ++ bytes "--" :: [62] :: [60] :: tokens)) =
      .inl <$> readElement create tokens := by
  simp only [round, if_true, List.head?_cons, removeComment_gap h]

theorem round_comments {comments : List Comment} (h : ∀ comment ∈ comments, comment.Clean)
    (hlength : 1 < comments.length) (tokens : Tokens) :
    round create true (gapTokens comments tokens) = .ok (.inl .null) := by
  match comments with
  | [] => simp at hlength
  | [_] => simp at hlength
  | first :: second :: comments =>
    obtain ⟨hfirst, hsecond, -⟩ := List.forall_mem_cons.mp h |>.imp_right List.forall_mem_cons.mp
    rw [gapTokens, round_comment hfirst, gapTokens, readElement_comment hsecond]
    rfl

/-- The recursive call reads the element when it is not too deep and its comments are found. -/
def ReadsSource (create : Tokens → Except Fault (Option (Element × Tokens))) (level : ℕ)
    (source : Source) : Prop :=
  ∀ comments : List Comment, (∀ comment ∈ comments, comment.Clean) → ∀ rest,
    create (gapTokens comments (source.tokens rest)) =
      .ok (if source.element.depth ≤ level ∧ comments.length ≤ 1 ∧ source.sparse then
        some (source.element, rest) else none)

/-- The recursive call does not read an end behind comments. -/
def RefusesEnd (create : Tokens → Except Fault (Option (Element × Tokens))) : Prop :=
  ∀ comments : List Comment, (∀ comment ∈ comments, comment.Clean) → comments ≠ [] → ∀ name rest,
    Word isSpace name → create (gapTokens comments ([47] :: name :: [62] :: rest)) = .ok none

theorem Source.Written.tokens_cons {source : Source} (h : source.Written) :
    ∃ name, Word isSpace name ∧ ∀ rest, ∃ behind, source.tokens rest = name :: behind := by
  cases h with
  | leaf hwritten =>
    obtain ⟨behind, htokens, hname⟩ := hwritten.tokens_cons
    exact ⟨_, hname, fun rest => ⟨behind ++ rest, by rw [Source.tokens, htokens, List.cons_append]⟩⟩
  | parent hname _ _ _ _ _ => exact ⟨_, hname, fun rest => ⟨_, by rw [Source.tokens]⟩⟩

theorem Source.Written.gap_cons {source : Source} (h : source.Written) (comments : List Comment)
    (rest : Tokens) :
    ∃ token behind, gapTokens comments (source.tokens rest) = token :: behind ∧ token ≠ [47] := by
  cases comments with
  | nil =>
    obtain ⟨name, hname, htokens⟩ := h.tokens_cons
    obtain ⟨behind, hbehind⟩ := htokens rest
    exact ⟨name, behind, hbehind, hname.ne_sign (by decide)⟩
  | cons comment comments => exact ⟨_, _, rfl, by decide⟩

theorem readChildren_source {children : List (List Comment × Source)}
    (hclean : ∀ child ∈ children, ∀ comment ∈ child.1, comment.Clean)
    (hwritten : ∀ child ∈ children, child.2.Written)
    (h : ∀ child ∈ children, ReadsSource create level child.2) (hend : RefusesEnd create)
    {behind : List Comment} (hbehind : ∀ comment ∈ behind, comment.Clean) {element : Element}
    (hname : Word isSpace element.name) {fuel : ℕ} (hfuel : children.length < fuel) (rest : Tokens) :
    readChildren create fuel element
        (childTokens children ([60] :: gapTokens behind ([47] :: element.name :: [62] :: rest))) =
      .ok (if depthAll (elementsOf children) ≤ level ∧ (behind.isEmpty && sparseAll children) then
        .returned { element with elements := element.elements ++ elementsOf children } rest
        else .null) := by
  obtain ⟨fuel, rfl⟩ : ∃ k, fuel = k + 1 := ⟨fuel - 1, by omega⟩
  induction children generalizing fuel element with
  | nil =>
    cases behind with
    | nil =>
      have hclosing : readChildren create (fuel + 1) element ([60] :: [47] :: element.name :: [62] :: rest) =
          .ok (closing element (element.name :: [62] :: rest)) := rfl
      rw [childTokens, gapTokens, hclosing, closing_end]
      cases element
      simp [elementsOf, depthAll, sparseAll]
    | cons comment behind =>
      have hnone := hend (comment :: behind) hbehind (List.cons_ne_nil _ _) element.name rest hname
      rw [gapTokens] at hnone
      rw [childTokens, gapTokens, readChildren_child (by decide), hnone]
      simp
      rfl
  | cons child children ih =>
    obtain ⟨comments, source⟩ := child
    obtain ⟨hcomments, hclean⟩ := List.forall_mem_cons.mp hclean
    obtain ⟨hsource, hwritten⟩ := List.forall_mem_cons.mp hwritten
    obtain ⟨hread, h⟩ := List.forall_mem_cons.mp h
    obtain ⟨fuel, rfl⟩ : ∃ k, fuel = k + 1 := ⟨fuel - 1, by rw [List.length_cons] at hfuel; omega⟩
    have hchild := hread comments hcomments
      (childTokens children ([60] :: gapTokens behind ([47] :: element.name :: [62] :: rest)))
    have hchildren := @ih hclean hwritten h { element with elements := element.elements ++ [source.element] }
      hname fuel (Nat.lt_of_succ_lt_succ hfuel)
    obtain ⟨token, tokens, htokens, hslash⟩ := hsource.gap_cons comments
      (childTokens children ([60] :: gapTokens behind ([47] :: element.name :: [62] :: rest)))
    rw [htokens] at hchild
    rw [childTokens, htokens, readChildren_child hslash, hchild]
    by_cases hfound : source.element.depth ≤ level ∧ comments.length ≤ 1 ∧ source.sparse
    · obtain ⟨hdepth, hlength, hsparse⟩ := hfound
      rw [if_pos ⟨hdepth, hlength, hsparse⟩]
      refine hchildren.trans ?_
      simp [elementsOf, depthAll, sparseAll, hdepth, hlength, hsparse]
    · rw [if_neg hfound, if_neg]
      · rfl
      · simp only [elementsOf, depthAll, sparseAll, max_le_iff, Bool.and_eq_true, decide_eq_true_eq]
        rintro ⟨⟨hdepth, -⟩, -, ⟨hlength, hsparse⟩, -⟩
        exact hfound ⟨hdepth, hlength, hsparse⟩

theorem readElement_source {source : Source} (h : source.Written)
    (hsources : ∀ source : Source, source.Written → ReadsSource create level source)
    (hend : RefusesEnd create) (rest : Tokens) :
    readElement create (source.tokens rest) =
      .ok (if source.element.depth ≤ level + 1 ∧ source.sparse then .returned source.element rest
        else .null) := by
  cases h with
  | leaf hwritten =>
    have hread := @readElement_tokens create level _ hwritten (fun e he => absurd he List.not_mem_nil) rest
    rw [Source.tokens, hread]
    simp [Source.element, Source.sparse]
  | @parent name attributes children behind hname hattributes hne hclean hwritten hbehind =>
    obtain ⟨tokens, htokens⟩ : ∃ tokens,
        childTokens children ([60] :: gapTokens behind ([47] :: name :: [62] :: rest)) = [60] :: tokens := by
      obtain ⟨child, others, rfl⟩ := List.exists_cons_of_ne_nil hne
      exact ⟨_, rfl⟩
    have hcontent : readContent create { name, attributes } ([62] :: [60] :: tokens) =
        readChildren create (([60] :: tokens).length + 1) { name, attributes } ([60] :: tokens) := by
      rw [readContent.eq_def]
      dsimp only
      rw [if_neg (by decide), if_pos rfl]
    have hlength := length_le_childTokens children
      ([60] :: gapTokens behind ([47] :: name :: [62] :: rest))
    have hfuel : children.length < ([60] :: tokens).length + 1 := by
      rw [← htokens]
      omega
    have helement : Word isSpace ({ name, attributes } : Element).name := hname
    have hread := readChildren_source hclean hwritten
      (fun child hchild => hsources child.2 (hwritten child hchild)) hend hbehind helement hfuel rest
    rw [htokens] at hread
    rw [Source.tokens, htokens, readElement_start hattributes (.inl rfl), hcontent, hread]
    simp [Source.element, Source.sparse, Element.depth]

theorem round_source {source : Source} (h : source.Written)
    (hread : ∀ rest, readElement create (source.tokens rest) =
      .ok (if source.element.depth ≤ level + 1 ∧ source.sparse then .returned source.element rest
        else .null))
    {comments : List Comment} (hcomments : ∀ comment ∈ comments, comment.Clean) (rest : Tokens) :
    round create true (gapTokens comments (source.tokens rest)) =
      .ok (.inl (if source.element.depth ≤ level + 1 ∧ comments.length ≤ 1 ∧ source.sparse then
        .returned source.element rest else .null)) := by
  match comments with
  | [] =>
    obtain ⟨name, hname, htokens⟩ := h.tokens_cons
    obtain ⟨behind, hbehind⟩ := htokens rest
    have hcomment : (source.tokens rest).head? ≠ some (bytes "!--") := by
      rw [hbehind]
      exact fun hhead => hname.ne_comment (Option.some.inj hhead)
    simp only [gapTokens, round, if_true, if_neg hcomment, hread]
    simp
  | [comment] =>
    rw [gapTokens, round_comment (hcomments comment List.mem_cons_self), gapTokens, hread]
    simp
  | first :: second :: comments =>
    rw [round_comments hcomments (by simp), if_neg]
    simp

end

/-- The recursive call reads every source, and refuses an end behind comments. -/
theorem createElement_source (level : ℕ) :
    (∀ source : Source, source.Written → ReadsSource (createElement level true) level source) ∧
      RefusesEnd (createElement level true) := by
  induction level with
  | zero =>
    refine ⟨fun source _ comments _ rest => ?_, fun comments _ _ name rest _ => rfl⟩
    rw [if_neg]
    · rfl
    · rintro ⟨hdepth, -⟩
      have hpos := source.element.depth_pos
      omega
  | succ level ih =>
    obtain ⟨hsources, hend⟩ := ih
    constructor
    · intro source h comments hcomments rest
      have hround := round_source h (readElement_source h hsources hend) hcomments rest
      obtain ⟨token, tokens, htokens, -⟩ := h.gap_cons comments rest
      rw [htokens] at hround ⊢
      exact elementLoop_of_round hround _
    · intro comments hcomments hne name rest hname
      obtain ⟨comment, comments, rfl⟩ := List.exists_cons_of_ne_nil hne
      have hround : round (createElement level true) true
          (gapTokens (comment :: comments) ([47] :: name :: [62] :: rest)) = .ok (.inl .null) := by
        cases comments with
        | nil =>
          rw [gapTokens, round_comment (hcomments comment List.mem_cons_self), gapTokens,
            readElement_end hname]
          rfl
        | cons second comments => exact round_comments hcomments (by simp) _
      rw [gapTokens] at hround ⊢
      rw [createElement, elementLoop, hround]
      rfl

theorem elementLoop_comments {create : Tokens → Except Fault (Option (Element × Tokens))}
    {before : List Comment} (h : ∀ comment ∈ before, comment.Clean) (tokens : Tokens) (fuel : ℕ) :
    elementLoop create false (fuel + before.length) none ([60] :: gapTokens before tokens) =
      elementLoop create false fuel none ([60] :: tokens) := by
  induction before with
  | nil => rfl
  | cons comment before ih =>
    obtain ⟨hcomment, hbefore⟩ := List.forall_mem_cons.mp h
    have hround : round create false ([60] :: gapTokens (comment :: before) tokens) =
        .ok (.inr ([60] :: gapTokens before tokens)) := by
      simp [round, gapTokens, removeComment_gap hcomment]
    rw [List.length_cons, ← Nat.add_assoc, elementLoop, hround]
    exact ih hbefore

theorem createElement_commented {source : Source} (h : source.Written) {before : List Comment}
    (hbefore : ∀ comment ∈ before, comment.Clean) (level : ℕ) (rest : Tokens) :
    createElement level false ([60] :: gapTokens before (source.tokens rest)) =
      .ok (if source.element.depth ≤ level ∧ source.sparse then some (source.element, rest) else none) := by
  cases level with
  | zero =>
    rw [if_neg]
    · rfl
    · rintro ⟨hdepth, -⟩
      have hpos := source.element.depth_pos
      omega
  | succ level =>
    obtain ⟨hsources, hend⟩ := createElement_source level
    have hread := readElement_source h hsources hend rest
    obtain ⟨name, hname, htokens⟩ := h.tokens_cons
    obtain ⟨behind, hbehind⟩ := htokens rest
    have hround : round (createElement level true) false ([60] :: source.tokens rest) =
        .ok (.inl (if source.element.depth ≤ level + 1 ∧ source.sparse then
          .returned source.element rest else .null)) := by
      rw [hbehind] at hread ⊢
      have hcomment : some name ≠ some (bytes "!--") := fun hhead => hname.ne_comment (Option.some.inj hhead)
      simp only [round, Bool.false_eq_true, ne_eq, not_true_eq_false, if_false, List.cons_ne_nil,
        List.head?_cons, if_neg hcomment, hread]
      rfl
    have hlength := length_le_gapTokens before (source.tokens rest)
    obtain ⟨fuel, hfuel⟩ : ∃ fuel, ([60] :: gapTokens before (source.tokens rest)).length + 1 =
        fuel + 1 + before.length :=
      ⟨(gapTokens before (source.tokens rest)).length + 1 - before.length, by rw [List.length_cons]; omega⟩
    rw [createElement, hfuel, elementLoop_comments hbefore]
    rw [hbehind] at hround ⊢
    exact elementLoop_of_round hround fuel

/-- What a text with comments is read as. -/
theorem deserialize_source {source : Source} (h : source.Written) {before : List Comment}
    (hbefore : ∀ comment ∈ before, comment.Clean) (level : ℕ) :
    deserialize (before.flatMap Comment.text ++ source.text) level =
      .ok (if source.element.depth ≤ level ∧ source.sparse then some source.element else none) := by
  have hscan := scan_source h []
  rw [List.append_nil] at hscan
  rw [deserialize, scan_comments hbefore hscan, createElement_commented h hbefore]
  split_ifs <;> rfl

theorem elementsOf_eq (children : List (List Comment × Source)) :
    elementsOf children = children.map fun child => child.2.element := by
  induction children with
  | nil => rw [elementsOf, List.map_nil]
  | cons child children ih => rw [elementsOf, ih, List.map_cons]

theorem Source.Written.element {source : Source} (h : source.Written) :
    Xml.Written isSpace source.element := by
  induction h with
  | leaf hwritten =>
    rw [Source.element]
    exact hwritten
  | parent hname hattributes hne _ _ _ ih =>
    rw [Source.element, elementsOf_eq]
    refine .parent hname hattributes (mt List.map_eq_nil_iff.mp hne) fun element helement => ?_
    obtain ⟨child, hchild, rfl⟩ := List.mem_map.mp helement
    exact ih child hchild

/-- Comments change nothing exactly when the level is below the depth, or each child has one comment
in front of it at most and there is none behind the last child. -/
theorem comments_unchanged_iff {before : List Comment} (hbefore : ∀ comment ∈ before, comment.Clean)
    {source : Source} (h : source.Written) (level : ℕ) :
    deserialize (before.flatMap Comment.text ++ source.text) level =
        deserialize (serialize source.element) level ↔
      level < source.element.depth ∨ source.sparse := by
  rw [deserialize_source h hbefore, deserialize_serialize source.element h.element]
  by_cases hdepth : source.element.depth ≤ level
  · cases hsparse : source.sparse <;> simp [hdepth]
  · simp [hdepth, not_le.mp hdepth]

/-- `<a><!-- x y --><b/><b/></a>` -/
def sampleSource : Source :=
  .parent (bytes "a") .empty
    [([[bytes "x", bytes "y"]], .leaf (bytes "b") [] .empty), ([], .leaf (bytes "b") [] .empty)] []

theorem leaf_written : (Source.leaf (bytes "b") [] .empty).Written :=
  .leaf (.empty (by decide) (by decide))

theorem sampleSource_written : sampleSource.Written := by
  refine .parent (by decide) (by decide) (by decide) (by decide) (fun child hchild => ?_) (by decide)
  rcases List.mem_cons.mp hchild with rfl | hchild
  · exact leaf_written
  · obtain rfl := List.mem_singleton.mp hchild
    exact leaf_written

theorem comments_unchanged_sampleSource :
    deserialize (bytes "<!-- z --><!-- z --><a><!-- x y --><b/><b/></a>") 2 =
      deserialize (bytes "<a><b/><b/></a>") 2 := by
  have hbefore : ∀ comment ∈ ([[bytes "z"], [bytes "z"]] : List Comment), comment.Clean := by decide
  exact (comments_unchanged_iff hbefore sampleSource_written 2).mpr (.inr rfl)

/-- The comment is behind the last child. -/
theorem comment_changes :
    (Source.parent (bytes "a") .empty [([], .leaf (bytes "b") [] .empty)] [[bytes "x"]]).Written ∧
      deserialize (bytes "<a><b/><!-- x --></a>") 2 ≠ deserialize (bytes "<a><b/></a>") 2 := by
  constructor
  · refine .parent (by decide) (by decide) (by decide) (by decide) (fun child hchild => ?_) (by decide)
    obtain rfl := List.mem_singleton.mp hchild
    exact leaf_written
  · have hcomment : deserialize (bytes "<a><b/><!-- x --></a>") 2 = .ok none := by rfl
    have hplain : deserialize (bytes "<a><b/></a>") 2 =
        .ok (some { name := bytes "a", elements := [{ name := bytes "b" }] }) := by rfl
    rw [hcomment, hplain]
    intro h
    cases h

end Sese.Xml
