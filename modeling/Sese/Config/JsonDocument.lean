import Sese.Config.JsonTrees

/-!
# The value of a document

`parse` of a text that a document is written in; the grammar of JSON, and the texts for which
`parse` neither throws nor makes a value of what is not in the grammar.
-/
namespace Sese.Json

open Foundation
open Value (emptied fill fill_word fillElements fillMembers)

variable {δ : Type} [Double δ]

mutual

/-- The value that the parser makes of a document. -/
def Doc.value : Doc → Value δ
  | .null => .null
  | .bool b => .bool b
  | .number text =>
    match parseBasic text with
    | .ok value => value
    | .error _ => .null
  | .string raw => .string raw
  | .array docs => .list (elementValues docs)
  | .object members => .dict (memberValues [] members)

def elementValues : List Doc → List (Value δ)
  | [] => []
  | doc :: docs => doc.value :: elementValues docs

/-- The members of a dictionary, with those of the object set one after the other. -/
def memberValues : List (Bytes × Value δ) → List (Bytes × Doc) → List (Bytes × Value δ)
  | acc, [] => acc
  | acc, (raw, doc) :: members => memberValues (Value.set acc raw doc.value) members

end

mutual

/-- Every number is a word and has a value, and no container is the value of a key that the object
has before. -/
def Doc.Readable (δ : Type) [Double δ] : Doc → Prop
  | .number text => Word text ∧ ∃ value : Value δ, parseBasic text = .ok value
  | .array docs => ElementsReadable δ docs
  | .object members => MembersReadable δ [] members
  | _ => True

def ElementsReadable (δ : Type) [Double δ] : List Doc → Prop
  | [] => True
  | doc :: docs => doc.Readable δ ∧ ElementsReadable δ docs

def MembersReadable (δ : Type) [Double δ] : List Bytes → List (Bytes × Doc) → Prop
  | _, [] => True
  | seen, (raw, doc) :: members =>
    doc.Readable δ ∧ (doc.isContainer → raw ∉ seen) ∧ MembersReadable δ (raw :: seen) members

end

def Signed (text : Bytes) : Prop := text ≠ [] ∧ ∀ b ∈ text, b = 45 ∨ isdigit b

theorem Signed.ne {text : Bytes} (h : Signed text) {c : UInt8} (hc : ¬ (c = 45 ∨ isdigit c))
    (tail : Bytes) : text ≠ c :: tail := by
  rintro rfl
  exact hc (h.2 c List.mem_cons_self)

theorem Signed.word {text : Bytes} (h : Signed text) : Word text := by
  have hoctet (b : UInt8) (hb : b = 45 ∨ isdigit b) : b ≠ 123 ∧ b ≠ 91 ∧ b ≠ 34 ∧
      isKeyword [b] = false ∧ isSpace b = false := by
    rcases hb with rfl | hb
    · decide
    · have hne (c : UInt8) (hc : isdigit c = false) : b ≠ c := by
        rintro rfl
        exact absurd hb (by simp [hc])
      refine ⟨hne 123 rfl, hne 91 rfl, hne 34 rfl, ?_, ?_⟩
      · simp [isKeyword, hne 125 rfl, hne 93 rfl, hne 58 rfl, hne 44 rfl]
      · simp [isSpace, hne 32 rfl, hne 10 rfl, hne 13 rfl, hne 9 rfl, hne 11 rfl, hne 8 rfl]
  refine ⟨h.1, ?_, ?_⟩
  · intro b hb
    obtain ⟨hobject, harray, hquote, -⟩ := hoctet b (h.2 b (List.mem_of_head? hb))
    exact ⟨hobject, harray, hquote⟩
  · intro b hb
    exact (hoctet b (h.2 b hb)).2.2.2

theorem parseBasic_signed {text : Bytes} (h : Signed text) {i : ℤ} (hi : stoll text = .ok i) :
    parseBasic text = (.ok (.int i) : Except Fault (Value δ)) := by
  have hnull : text ≠ bytes "null" := h.ne (by decide) _
  have htrue : text ≠ bytes "true" := h.ne (by decide) _
  have hfalse : text ≠ bytes "false" := h.ne (by decide) _
  have hquote : text.head? ≠ some 34 := by
    intro heq
    exact absurd (h.2 34 (List.mem_of_head? heq)) (by decide)
  have hpoint : (46 : UInt8) ∉ text.drop 1 := by
    intro hmem
    exact absurd (h.2 46 (List.mem_of_mem_drop hmem)) (by decide)
  rw [parseBasic, if_neg hnull, if_neg htrue, if_neg hfalse, if_neg hquote, if_neg hpoint, hi]
  rfl

theorem signed_signedDecimal (i : ℤ) : Signed (signedDecimal i) := by
  rw [signedDecimal]
  split_ifs
  · refine ⟨List.cons_ne_nil _ _, ?_⟩
    intro b hb
    rcases List.mem_cons.mp hb with rfl | hb
    · exact .inl rfl
    · exact .inr (isdigit_toDecimal _ b hb)
  · exact ⟨toDecimal_ne_nil _, fun b hb => .inr (isdigit_toDecimal _ b hb)⟩

mutual

/-- A document that is readable has a tree, and filling makes its value of it. -/
theorem fill_readable (doc : Doc) (h : doc.Readable δ) : ∃ tree : Value δ, doc.tree = some tree ∧
    ∀ start, (doc.isContainer → start = emptied tree) → fill start tree = some doc.value := by
  match doc with
  | .null => exact ⟨_, rfl, fun start _ => fill_word rfl start⟩
  | .bool b => exact ⟨_, rfl, fun start _ => fill_word rfl start⟩
  | .number text =>
    obtain ⟨-, value, hvalue⟩ := h
    refine ⟨value, by rw [Doc.tree, hvalue]; rfl, fun start _ => ?_⟩
    rw [fill_word (parseBasic_ne_container hvalue), Doc.value, hvalue]
  | .string raw => exact ⟨_, rfl, fun start _ => fill_word rfl start⟩
  | .array docs =>
    obtain ⟨trees, htrees, hfill⟩ := fill_elementsReadable docs h
    refine ⟨.list trees, by rw [Doc.tree, htrees]; rfl, fun start hstart => ?_⟩
    have hlist : fill (.list []) (.list trees) = some (.list (elementValues docs)) := by simp [fill, hfill]
    rw [hstart rfl]
    exact hlist
  | .object members =>
    obtain ⟨trees, htrees, hfill⟩ := fill_membersReadable members h (List.forall_mem_nil _)
    refine ⟨.dict trees, by rw [Doc.tree, htrees]; rfl, fun start hstart => ?_⟩
    have hdict : fill (.dict []) (.dict trees) = some (.dict (memberValues [] members)) := by
      simp [fill, hfill]
    rw [hstart rfl]
    exact hdict

theorem fill_elementsReadable (docs : List Doc) (h : ElementsReadable δ docs) :
    ∃ trees : List (Value δ), elementTrees docs = some trees ∧
      fillElements trees = some (elementValues docs) := by
  match docs with
  | [] => exact ⟨[], rfl, rfl⟩
  | doc :: docs =>
    obtain ⟨tree, htree, hfill⟩ := fill_readable doc h.1
    obtain ⟨trees, htrees, hfills⟩ := fill_elementsReadable docs h.2
    refine ⟨tree :: trees, by rw [elementTrees, htree, htrees]; rfl, ?_⟩
    rw [fillElements, hfill _ fun _ => rfl, hfills]
    rfl

theorem fill_membersReadable (members : List (Bytes × Doc)) {seen : List Bytes}
    (h : MembersReadable δ seen members) {acc : List (Bytes × Value δ)} (hseen : ∀ e ∈ acc, e.1 ∈ seen) :
    ∃ trees : List (Bytes × Value δ), memberTrees members = some trees ∧
      fillMembers acc trees = some (memberValues acc members) := by
  match members with
  | [] => exact ⟨[], rfl, rfl⟩
  | (raw, doc) :: members =>
    obtain ⟨hdoc, hnew, hmembers⟩ := h
    obtain ⟨tree, htree, hfill⟩ := fill_readable doc hdoc
    have hstored : ∀ e ∈ Value.set acc raw doc.value, e.1 ∈ raw :: seen := by
      intro e he
      rcases Value.mem_set he with heq | he
      · rw [heq]
        exact List.mem_cons_self
      · exact List.mem_cons_of_mem _ (hseen e he)
    obtain ⟨trees, htrees, hfills⟩ := fill_membersReadable members hmembers hstored
    refine ⟨(raw, tree) :: trees, by rw [memberTrees, htree, htrees]; rfl, ?_⟩
    have hstart : doc.isContainer → Value.setRef acc raw (emptied tree) = emptied tree := by
      intro hcontainer
      apply Value.setRef_new
      intro e he heq
      exact hnew hcontainer (heq ▸ hseen e he)
    rw [fillMembers, hfill _ hstart]
    exact hfills

end

theorem parse_text {doc : Doc} {before text behind : Bytes} (hbefore : Blank before)
    (htext : Text doc text) (hbehind : Blank behind) (hcontainer : doc.isContainer)
    (hreadable : doc.Readable δ) :
    parse (before ++ (text ++ behind)) = .ok (doc.value : Value δ) := by
  obtain ⟨tree, htree, hfill⟩ := fill_readable doc hreadable
  exact parse_of_fill hbefore htext hbehind hcontainer htree (hfill _ fun _ => rfl)

def isHex (b : UInt8) : Bool :=
  isdigit b ∨ (97 ≤ b.toNat ∧ b.toNat ≤ 102) ∨ (65 ≤ b.toNat ∧ b.toNat ≤ 70)

/-- What stands between the quotes of a string. -/
inductive Chars : Bytes → Prop
  | nil : Chars []
  | unescaped {b : UInt8} {raw : Bytes} : 32 ≤ b.toNat → b ≠ 34 → b ≠ 92 → Chars raw →
    Chars (b :: raw)
  | escape {b : UInt8} {raw : Bytes} : b ∈ [34, 92, 47, 98, 102, 110, 114, 116] → Chars raw →
    Chars (92 :: b :: raw)
  | unicode {a b c d : UInt8} {raw : Bytes} : isHex a → isHex b → isHex c → isHex d → Chars raw →
    Chars (92 :: 117 :: a :: b :: c :: d :: raw)

def Digits (text : Bytes) : Prop := text ≠ [] ∧ ∀ b ∈ text, isdigit b

/-- A number: the digits do not start with a zero that is not the only one. -/
inductive Number : Bytes → Prop
  | mk {minus int frac exp : Bytes} : minus = [] ∨ minus = [45] →
    Digits int → (int.head? = some 48 → int = [48]) →
    (frac = [] ∨ ∃ digits, Digits digits ∧ frac = 46 :: digits) →
    (exp = [] ∨ ∃ e sign digits, (e = 101 ∨ e = 69) ∧ (sign = [] ∨ sign = [43] ∨ sign = [45]) ∧
      Digits digits ∧ exp = e :: (sign ++ digits)) →
    Number (minus ++ (int ++ (frac ++ exp)))

mutual

/-- The numbers and the strings are those of the grammar. -/
def Doc.Strict : Doc → Prop
  | .number text => Number text
  | .string raw => Chars raw
  | .array docs => ElementsStrict docs
  | .object members => MembersStrict members
  | _ => True

def ElementsStrict : List Doc → Prop
  | [] => True
  | doc :: docs => doc.Strict ∧ ElementsStrict docs

def MembersStrict : List (Bytes × Doc) → Prop
  | [] => True
  | (raw, doc) :: members => Chars raw ∧ doc.Strict ∧ MembersStrict members

end

def WellFormed (text : Bytes) : Prop :=
  ∃ before doc body behind, text = before ++ (body ++ behind) ∧ Blank before ∧ Blank behind ∧
    Text doc body ∧ doc.Strict

def Comes (δ : Type) [Double δ] (text word : Bytes) : Prop :=
  ∃ tokens, tokenizer .between text = some tokens ∧ ReachesRoot δ tokens word

def Accepted (δ : Type) [Double δ] (text : Bytes) : Prop :=
  ∃ (tokens : Tokens) (value : Value δ), tokenizer .between text = some tokens ∧
    ReadsRoot tokens value

theorem Read.isContainer {top value : Value δ} {tokens rest : Tokens}
    (h : Read top tokens value rest) : value.isContainer := by
  induction h with
  | finishes hfinishes => cases hfinishes <;> rfl
  | word _ _ _ _ ih => exact ih
  | container _ _ _ _ _ ih => exact ih

theorem ReadsRoot.ne_null {tokens : Tokens} {value : Value δ} (h : ReadsRoot tokens value) :
    value ≠ .null := by
  obtain ⟨-, hread⟩ := h
  rintro rfl
  cases hread.isContainer

theorem Accepted.parse_eq {text : Bytes} (h : Accepted δ text) :
    ∃ value : Value δ, parse text = .ok value ∧ value ≠ .null := by
  obtain ⟨tokens, value, htokens, hroot⟩ := h
  refine ⟨value, ?_, hroot.ne_null⟩
  rw [parse, htokens]
  cases hroot with
  | mk hopens hread => exact ReadsRoot.parseTokens_eq (.mk hopens hread)

theorem Comes.parse_eq {text word : Bytes} (h : Comes δ text word) {fault : Fault}
    (hfault : parseBasic word = (.error fault : Except Fault (Value δ))) :
    parse text = (.error fault : Except Fault (Value δ)) := by
  obtain ⟨tokens, htokens, hroot⟩ := h
  rw [parse, htokens]
  cases hroot with
  | mk hopens hreaches => exact ReachesRoot.parseTokens_eq (.mk hopens hreaches) hfault

/-- A text is accepted, or a conversion throws, or the result is `null`. -/
theorem parse_cases (text : Bytes) :
    Accepted δ text ∨
    (∃ word fault, Comes δ text word ∧ parseBasic word = (.error fault : Except Fault (Value δ))) ∨
    parse text = (.ok .null : Except Fault (Value δ)) := by
  rw [parse]
  cases htokens : tokenizer .between text with
  | none => exact .inr (.inr rfl)
  | some tokens =>
    cases tokens with
    | nil => exact .inr (.inr rfl)
    | cons front tokens =>
      have hstarted : Scanning.Started .between := trivial
      have hne := tokenizer_ne_nil hstarted htokens
      rcases parseTokens_cases (δ := δ) hne with ⟨value, hroot⟩ | ⟨word, fault, hroot, hfault⟩ | hnull
      · exact .inl ⟨_, value, htokens, hroot⟩
      · exact .inr (.inl ⟨word, fault, ⟨_, htokens, hroot⟩, hfault⟩)
      · exact .inr (.inr hnull)

/-- `parse` returns, with `null` for every malformed text, exactly when every word that it comes
to has a conversion, and it accepts no text outside of the grammar. -/
theorem parse_returns_iff (text : Bytes) :
    ((∃ value : Value δ, parse text = .ok value) ∧
      (¬ WellFormed text → parse text = (.ok .null : Except Fault (Value δ)))) ↔
    (∀ word, Comes δ text word → ∃ value : Value δ, parseBasic word = .ok value) ∧
      (Accepted δ text → WellFormed text) := by
  constructor
  · rintro ⟨⟨value, hvalue⟩, hnull⟩
    constructor
    · intro word hcomes
      cases hbasic : (parseBasic word : Except Fault (Value δ)) with
      | ok v => exact ⟨v, rfl⟩
      | error fault =>
        rw [hcomes.parse_eq hbasic] at hvalue
        cases hvalue
    · intro haccepted
      by_contra hmalformed
      obtain ⟨v, hv, hne⟩ := haccepted.parse_eq
      rw [hnull hmalformed] at hv
      cases hv
      exact hne rfl
  · rintro ⟨hwords, hwell⟩
    rcases parse_cases (δ := δ) text with haccepted | ⟨word, fault, hcomes, hfault⟩ | hnull
    · obtain ⟨value, hvalue, -⟩ := haccepted.parse_eq
      exact ⟨⟨value, hvalue⟩, fun hmalformed => absurd (hwell haccepted) hmalformed⟩
    · obtain ⟨v, hv⟩ := hwords word hcomes
      rw [hfault] at hv
      cases hv
    · exact ⟨⟨.null, hnull⟩, fun _ => hnull⟩

/-- The word in the array has no digit for `std::stoll`. -/
theorem parse_throws_word :
    ¬ ((∃ value : Value Empty, parse (bytes "[abc]") = .ok value) ∧
      (¬ WellFormed (bytes "[abc]") →
        parse (bytes "[abc]") = (.ok .null : Except Fault (Value Empty)))) := by
  have hthrows : parse (bytes "[abc]") = (.error .terminate : Except Fault (Value Empty)) := by rfl
  rintro ⟨⟨value, hvalue⟩, -⟩
  rw [hthrows] at hvalue
  cases hvalue

end Sese.Json
