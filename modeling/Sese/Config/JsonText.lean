import Sese.Config.Json

/-!
# JSON texts

Documents with the strings and numbers as they stand in the text, the ways to write a document
down, and the tokens that the tokenizer finds in what is written.
-/
namespace Sese.Json

/-- A document. The strings and keys are without their quotes, and not unescaped. -/
inductive Doc
  | null
  | bool (b : Bool)
  | number (text : Bytes)
  | string (raw : Bytes)
  | array (docs : List Doc)
  | object (members : List (Bytes × Doc))

def Doc.isContainer : Doc → Bool
  | .array _ => true
  | .object _ => true
  | _ => false

/-- A text in which every backslash has an octet behind it, and every quote a backslash in front
of it that is not the second of such a pair. -/
inductive Escaped : Bytes → Prop
  | nil : Escaped []
  | octet {b : UInt8} {raw : Bytes} : b ≠ 34 → b ≠ 92 → Escaped raw → Escaped (b :: raw)
  | pair (b : UInt8) {raw : Bytes} : Escaped raw → Escaped (92 :: b :: raw)

def backslashes (front : Bytes) : ℕ := (front.reverse.takeWhile fun b => b = 92).length

theorem backslashes_cons {b : UInt8} (h : b ≠ 92) (front : Bytes) :
    backslashes (b :: front) = backslashes front := by
  rw [backslashes, backslashes, List.reverse_cons, List.takeWhile_append]
  split_ifs with hall
  · simp [h, hall]
  · rfl

/-- A pair at the start does not change whether the run at the end is odd. -/
theorem backslashes_pair (b : UInt8) (front : Bytes) :
    backslashes (92 :: b :: front) % 2 = backslashes front % 2 := by
  by_cases hb : b = 92
  · subst hb
    rw [backslashes, backslashes, List.reverse_cons, List.reverse_cons, List.append_assoc,
      List.takeWhile_append]
    split_ifs with hall
    · simp [hall]
    · rfl
  · rw [backslashes, backslashes, List.reverse_cons, List.reverse_cons, List.append_assoc,
      List.takeWhile_append]
    split_ifs with hall
    · simp [hall, hb]
    · rfl

/-- Every quote has an odd run of backslashes in front of it, and there is none at the end. -/
structure AlreadyEscaped (raw : Bytes) : Prop where
  quote : ∀ front rest, raw = front ++ 34 :: rest → backslashes front % 2 = 1
  last : backslashes raw % 2 = 0

theorem AlreadyEscaped.escaped {raw : Bytes} (h : AlreadyEscaped raw) : Escaped raw := by
  match raw with
  | [] => exact .nil
  | [b] =>
    have hquote : b ≠ 34 := by
      rintro rfl
      exact absurd (h.quote [] [] rfl) (by decide)
    have hslash : b ≠ 92 := by
      rintro rfl
      exact absurd h.last (by decide)
    exact .octet hquote hslash .nil
  | b :: c :: raw =>
    by_cases hslash : b = 92
    · subst hslash
      apply Escaped.pair c
      apply AlreadyEscaped.escaped
      constructor
      · intro front rest hraw
        rw [← backslashes_pair c front]
        exact h.quote (92 :: c :: front) rest (by rw [hraw]; rfl)
      · rw [← backslashes_pair c raw]
        exact h.last
    · have hquote : b ≠ 34 := by
        rintro rfl
        exact absurd (h.quote [] (c :: raw) rfl) (by decide)
      apply Escaped.octet hquote hslash
      apply AlreadyEscaped.escaped
      constructor
      · intro front rest hraw
        rw [← backslashes_cons hslash front]
        exact h.quote (b :: front) rest (by rw [hraw]; rfl)
      · rw [← backslashes_cons hslash (c :: raw)]
        exact h.last
termination_by raw.length

theorem Escaped.already {raw : Bytes} (h : Escaped raw) : AlreadyEscaped raw := by
  induction h with
  | nil =>
    refine ⟨fun front rest hraw => ?_, rfl⟩
    cases front <;> cases hraw
  | @octet b raw hquote hslash _ ih =>
    refine ⟨fun front rest hraw => ?_, by rw [backslashes_cons hslash, ih.last]⟩
    cases front with
    | nil => exact absurd (List.cons_eq_cons.mp hraw).1 hquote
    | cons c front =>
      obtain ⟨rfl, htail⟩ := List.cons_eq_cons.mp hraw
      rw [backslashes_cons hslash]
      exact ih.quote front rest htail
  | @pair b raw _ ih =>
    refine ⟨fun front rest hraw => ?_, by rw [backslashes_pair, ih.last]⟩
    rcases front with _ | ⟨c, _ | ⟨d, front⟩⟩
    · exact absurd (List.cons_eq_cons.mp hraw).1 (by decide)
    · rw [← (List.cons_eq_cons.mp hraw).1]
      rfl
    · obtain ⟨hslash, hrest⟩ := List.cons_eq_cons.mp hraw
      obtain ⟨rfl, htail⟩ := List.cons_eq_cons.mp hrest
      rw [← hslash, backslashes_pair]
      exact ih.quote front rest htail

def Blank (text : Bytes) : Prop := ∀ b ∈ text, b = 32 ∨ b = 9 ∨ b = 10 ∨ b = 13

theorem blank_nil : Blank [] := by
  intro b hb
  cases hb

/-- A token that is neither a string nor one of the six structural characters. -/
structure Word (text : Bytes) : Prop where
  ne_nil : text ≠ []
  first : ∀ b ∈ text.head?, b ≠ 123 ∧ b ≠ 91 ∧ b ≠ 34
  octets : ∀ b ∈ text, isKeyword [b] = false ∧ isSpace b = false

mutual

/-- The document is written so, with white space anywhere inside. -/
inductive Text : Doc → Bytes → Prop
  | null : Text .null (bytes "null")
  | bool (b : Bool) : Text (.bool b) (if b then bytes "true" else bytes "false")
  | number {text : Bytes} : Word text → Text (.number text) text
  | string {raw : Bytes} : Escaped raw → Text (.string raw) (34 :: (raw ++ [34]))
  | emptyArray {blank : Bytes} : Blank blank → Text (.array []) (91 :: (blank ++ [93]))
  | array {docs : List Doc} {text : Bytes} : Elements docs text →
    Text (.array docs) (91 :: (text ++ [93]))
  | emptyObject {blank : Bytes} : Blank blank → Text (.object []) (123 :: (blank ++ [125]))
  | object {members : List (Bytes × Doc)} {text : Bytes} : Members members text →
    Text (.object members) (123 :: (text ++ [125]))

/-- The elements of an array, one at least. -/
inductive Elements : List Doc → Bytes → Prop
  | last {doc : Doc} {before text behind : Bytes} : Blank before → Text doc text → Blank behind →
    Elements [doc] (before ++ (text ++ behind))
  | cons {doc : Doc} {docs : List Doc} {before text behind rest : Bytes} : Blank before →
    Text doc text → Blank behind → Elements docs rest →
    Elements (doc :: docs) (before ++ (text ++ (behind ++ 44 :: rest)))

/-- The members of an object, one at least. -/
inductive Members : List (Bytes × Doc) → Bytes → Prop
  | last {raw : Bytes} {doc : Doc} {before behindName between text behind : Bytes} :
    Blank before → Escaped raw → Blank behindName → Blank between → Text doc text → Blank behind →
    Members [(raw, doc)]
      (before ++ 34 :: (raw ++ 34 :: (behindName ++ 58 :: (between ++ (text ++ behind)))))
  | cons {raw : Bytes} {doc : Doc} {members : List (Bytes × Doc)}
    {before behindName between text behind rest : Bytes} :
    Blank before → Escaped raw → Blank behindName → Blank between → Text doc text → Blank behind →
    Members members rest →
    Members ((raw, doc) :: members) (before ++ 34 :: (raw ++ 34 :: (behindName ++
      58 :: (between ++ (text ++ (behind ++ 44 :: rest))))))

end

def quoted (raw : Bytes) : Bytes := 34 :: (raw ++ [34])

mutual

def Doc.tokens : Doc → Tokens
  | .null => [bytes "null"]
  | .bool b => [if b then bytes "true" else bytes "false"]
  | .number text => [text]
  | .string raw => [quoted raw]
  | .array [] => [[91], [93]]
  | .array (doc :: docs) => [91] :: (doc.tokens ++ elementTokens docs)
  | .object [] => [[123], [125]]
  | .object ((raw, doc) :: members) =>
    [123] :: quoted raw :: [58] :: (doc.tokens ++ memberTokens members)

/-- The tokens of the elements that follow another one, and of the end of the array. -/
def elementTokens : List Doc → Tokens
  | [] => [[93]]
  | doc :: docs => [44] :: (doc.tokens ++ elementTokens docs)

/-- The tokens of the members that follow another one, and of the end of the object. -/
def memberTokens : List (Bytes × Doc) → Tokens
  | [] => [[125]]
  | (raw, doc) :: members =>
    [44] :: quoted raw :: [58] :: (doc.tokens ++ memberTokens members)

end

@[simp] theorem tokens_array (doc : Doc) (docs : List Doc) :
    (Doc.array (doc :: docs)).tokens.tail = doc.tokens ++ elementTokens docs := by
  rw [Doc.tokens]
  rfl

@[simp] theorem tokens_object (raw : Bytes) (doc : Doc) (members : List (Bytes × Doc)) :
    (Doc.object ((raw, doc) :: members)).tokens.tail =
      quoted raw :: [58] :: (doc.tokens ++ memberTokens members) := by
  rw [Doc.tokens]
  rfl

def found (tokens : Tokens) (rest : Option Tokens) : Option Tokens := rest.map (tokens ++ ·)

theorem found_found (front tokens : Tokens) (rest : Option Tokens) :
    found front (found tokens rest) = found (front ++ tokens) rest := by
  cases rest <;> simp [found]

theorem tokenizer_between (ch : UInt8) (input : Bytes) :
    tokenizer .between (ch :: input) =
      if ch = 123 ∨ ch = 125 ∨ ch = 91 ∨ ch = 93 ∨ ch = 44 ∨ ch = 58 then
        found [[ch]] (tokenizer .between input)
      else if ch = 34 then tokenizer (.string [34]) input
      else if isSpace ch then tokenizer .between input
      else tokenizer (.word [ch]) input := rfl

theorem scan_structural {ch : UInt8}
    (h : ch = 123 ∨ ch = 125 ∨ ch = 91 ∨ ch = 93 ∨ ch = 44 ∨ ch = 58) (rest : Bytes) :
    tokenizer .between (ch :: rest) = found [[ch]] (tokenizer .between rest) := by
  rw [tokenizer_between, if_pos h]

theorem scan_blank {blank : Bytes} (h : Blank blank) (rest : Bytes) :
    tokenizer .between (blank ++ rest) = tokenizer .between rest := by
  induction blank with
  | nil => rfl
  | cons b blank ih =>
    have hrest := ih fun c hc => h c (List.mem_cons_of_mem _ hc)
    rw [List.cons_append, tokenizer_between, hrest]
    rcases h b List.mem_cons_self with rfl | rfl | rfl | rfl <;> simp [isSpace]

theorem tokenizer_string_octet {b : UInt8} (hquote : b ≠ 34) (hslash : b ≠ 92) (builder input : Bytes) :
    tokenizer (.string builder) (b :: input) = tokenizer (.string (builder ++ [b])) input := by
  rw [tokenizer.eq_def]
  dsimp only
  rw [if_neg hslash, if_neg hquote]

theorem tokenizer_string_pair (b : UInt8) (builder input : Bytes) :
    tokenizer (.string builder) (92 :: b :: input) = tokenizer (.string (builder ++ [92, b])) input := rfl

theorem tokenizer_string_quote (builder input : Bytes) :
    tokenizer (.string builder) (34 :: input) =
      found [builder ++ [34]] (tokenizer .between input) := by
  rw [tokenizer.eq_def]
  rfl

theorem scan_raw {raw : Bytes} (h : Escaped raw) (builder rest : Bytes) :
    tokenizer (.string builder) (raw ++ rest) = tokenizer (.string (builder ++ raw)) rest := by
  induction h generalizing builder with
  | nil => simp
  | @octet b raw hquote hslash _ ih =>
    rw [List.cons_append, tokenizer_string_octet hquote hslash, ih, List.append_assoc]
    rfl
  | @pair b raw _ ih =>
    rw [List.cons_append, List.cons_append, tokenizer_string_pair, ih, List.append_assoc]
    rfl

theorem scan_quoted {raw : Bytes} (h : Escaped raw) (rest : Bytes) :
    tokenizer .between (34 :: (raw ++ 34 :: rest)) = found [quoted raw] (tokenizer .between rest) := by
  rw [tokenizer_between, if_neg (by decide), if_pos rfl, scan_raw h, tokenizer_string_quote]
  rfl

/-- What ends a token that is neither a string nor a structural character. -/
def Ends (rest : Bytes) : Prop := ∃ ch ∈ rest.head?, isKeyword [ch] ∨ isSpace ch

theorem Ends.blank {blank : Bytes} (h : Blank blank) {rest : Bytes} (hrest : Ends rest) :
    Ends (blank ++ rest) := by
  cases blank with
  | nil => exact hrest
  | cons b blank =>
    refine ⟨b, rfl, .inr ?_⟩
    rcases h b List.mem_cons_self with rfl | rfl | rfl | rfl <;> rfl

theorem Ends.structural {ch : UInt8} (h : ch = 125 ∨ ch = 93 ∨ ch = 44) (rest : Bytes) :
    Ends (ch :: rest) := by
  refine ⟨ch, rfl, .inl ?_⟩
  rcases h with rfl | rfl | rfl <;> rfl

theorem tokenizer_word_end (builder : Bytes) (b : UInt8) (input : Bytes) :
    tokenizer (.word builder) (b :: input) =
      if isKeyword [b] then found [builder, [b]] (tokenizer .between input)
      else if isSpace b then found [builder] (tokenizer .between input)
      else tokenizer (.word (builder ++ [b])) input := rfl

theorem scan_word_octets {text : Bytes} (h : ∀ b ∈ text, isKeyword [b] = false ∧ isSpace b = false)
    (builder rest : Bytes) :
    tokenizer (.word builder) (text ++ rest) = tokenizer (.word (builder ++ text)) rest := by
  induction text generalizing builder with
  | nil => simp
  | cons b text ih =>
    obtain ⟨hkeyword, hspace⟩ := h b List.mem_cons_self
    rw [List.cons_append, tokenizer_word_end, hkeyword, hspace]
    simp only [Bool.false_eq_true, if_false]
    rw [ih (fun c hc => h c (List.mem_cons_of_mem _ hc)), List.append_assoc]
    rfl

theorem scan_word_end {rest : Bytes} (h : Ends rest) (builder : Bytes) :
    tokenizer (.word builder) rest = found [builder] (tokenizer .between rest) := by
  obtain ⟨ch, hch, hend⟩ := h
  cases rest with
  | nil => cases hch
  | cons b rest =>
    obtain rfl : b = ch := Option.some.inj hch
    by_cases hkeyword : isKeyword [b]
    · have hstructural : b = 123 ∨ b = 125 ∨ b = 91 ∨ b = 93 ∨ b = 44 ∨ b = 58 := by
        simp only [isKeyword, List.head?_cons, Option.some.injEq, decide_eq_true_eq] at hkeyword
        rcases hkeyword with rfl | rfl | rfl | rfl <;> decide
      rw [tokenizer_word_end, if_pos hkeyword, scan_structural hstructural, found_found]
      rfl
    · have hspace : isSpace b := hend.resolve_left hkeyword
      have hbetween : tokenizer .between (b :: rest) = tokenizer .between rest := by
        have hb : b = 32 ∨ b = 10 ∨ b = 13 ∨ b = 9 ∨ b = 11 ∨ b = 8 := by
          simpa [isSpace] using hspace
        rcases hb with rfl | rfl | rfl | rfl | rfl | rfl <;> rfl
      rw [tokenizer_word_end, if_neg hkeyword, if_pos hspace, hbetween]

theorem scan_word {text rest : Bytes} (h : Word text) (hrest : Ends rest) :
    tokenizer .between (text ++ rest) = found [text] (tokenizer .between rest) := by
  obtain ⟨b, text, rfl⟩ := List.exists_cons_of_ne_nil h.ne_nil
  obtain ⟨hopen, hbracket, hquote⟩ := h.first b rfl
  obtain ⟨hkeyword, hspace⟩ := h.octets b List.mem_cons_self
  simp only [isKeyword, List.head?_cons, Option.some.injEq, decide_eq_false_iff_not, not_or] at hkeyword
  have hstructural : ¬ (b = 123 ∨ b = 125 ∨ b = 91 ∨ b = 93 ∨ b = 44 ∨ b = 58) := by
    rintro (hb | hb | hb | hb | hb | hb)
    · exact hopen hb
    · exact hkeyword.1 hb
    · exact hbracket hb
    · exact hkeyword.2.1 hb
    · exact hkeyword.2.2.2 hb
    · exact hkeyword.2.2.1 hb
  rw [List.cons_append, tokenizer_between, if_neg hstructural, if_neg hquote, hspace]
  simp only [Bool.false_eq_true, if_false]
  rw [scan_word_octets (fun c hc => h.octets c (List.mem_cons_of_mem _ hc)), scan_word_end hrest]
  rfl

theorem word_null : Word (bytes "null") := ⟨by decide, by decide, by decide⟩

theorem word_bool (b : Bool) : Word (if b then bytes "true" else bytes "false") := by
  cases b
  · exact ⟨by decide, by decide, by decide⟩
  · exact ⟨by decide, by decide, by decide⟩

mutual

/-- The tokens of a document are found in the text of the document. -/
theorem scan_text {doc : Doc} {text : Bytes} (h : Text doc text) {rest : Bytes}
    (hrest : doc.isContainer ∨ Ends rest) :
    tokenizer .between (text ++ rest) = found doc.tokens (tokenizer .between rest) := by
  cases h with
  | null => exact scan_word word_null (hrest.resolve_left (by decide))
  | bool b => exact scan_word (word_bool b) (hrest.resolve_left (by simp [Doc.isContainer]))
  | number hword => exact scan_word hword (hrest.resolve_left (by simp [Doc.isContainer]))
  | @string raw hraw =>
    rw [List.cons_append, List.append_assoc]
    exact scan_quoted hraw rest
  | emptyArray hblank =>
    rw [List.cons_append, List.append_assoc, List.singleton_append, scan_structural (by decide),
      scan_blank hblank, scan_structural (by decide), found_found]
    rfl
  | @array docs text helements =>
    have htokens : [[91]] ++ (Doc.array docs).tokens.tail = (Doc.array docs).tokens := by
      cases docs <;> rw [Doc.tokens] <;> rfl
    rw [List.cons_append, List.append_assoc, List.singleton_append, scan_structural (by decide),
      scan_elements helements, found_found, htokens]
  | emptyObject hblank =>
    rw [List.cons_append, List.append_assoc, List.singleton_append, scan_structural (by decide),
      scan_blank hblank, scan_structural (by decide), found_found]
    rfl
  | @object members text hmembers =>
    have htokens : [[123]] ++ (Doc.object members).tokens.tail = (Doc.object members).tokens := by
      cases members <;> rw [Doc.tokens] <;> rfl
    rw [List.cons_append, List.append_assoc, List.singleton_append, scan_structural (by decide),
      scan_members hmembers, found_found, htokens]

theorem scan_elements {docs : List Doc} {text : Bytes} (h : Elements docs text) (rest : Bytes) :
    tokenizer .between (text ++ 93 :: rest) =
      found (Doc.array docs).tokens.tail (tokenizer .between rest) := by
  cases h with
  | @last doc before text behind hbefore htext hbehind =>
    have hend : Ends (behind ++ 93 :: rest) := .blank hbehind (.structural (by decide) rest)
    rw [List.append_assoc, List.append_assoc, scan_blank hbefore, scan_text htext (.inr hend),
      scan_blank hbehind, scan_structural (by decide), found_found, tokens_array, elementTokens]
  | @cons doc docs before text behind others hbefore htext hbehind hothers =>
    have hend : Ends (behind ++ 44 :: (others ++ 93 :: rest)) :=
      .blank hbehind (.structural (by decide) _)
    have htokens : [[44]] ++ (Doc.array docs).tokens.tail = elementTokens docs := by
      cases hothers <;> rw [tokens_array, elementTokens] <;> rfl
    simp only [List.append_assoc, List.cons_append]
    rw [scan_blank hbefore, scan_text htext (.inr hend), scan_blank hbehind, scan_structural (by decide),
      scan_elements hothers, found_found, found_found, List.append_assoc, htokens, tokens_array]

theorem scan_members {members : List (Bytes × Doc)} {text : Bytes} (h : Members members text)
    (rest : Bytes) :
    tokenizer .between (text ++ 125 :: rest) =
      found (Doc.object members).tokens.tail (tokenizer .between rest) := by
  cases h with
  | @last raw doc before behindName between text behind hbefore hraw hname hbetween htext hbehind =>
    have hend : Ends (behind ++ 125 :: rest) := .blank hbehind (.structural (by decide) rest)
    simp only [List.append_assoc, List.cons_append]
    rw [scan_blank hbefore, scan_quoted hraw, scan_blank hname, scan_structural (by decide),
      scan_blank hbetween, scan_text htext (.inr hend), scan_blank hbehind, scan_structural (by decide),
      found_found, found_found, found_found, tokens_object, memberTokens]
    rfl
  | @cons raw doc members before behindName between text behind others hbefore hraw hname hbetween
      htext hbehind hothers =>
    have hend : Ends (behind ++ 44 :: (others ++ 125 :: rest)) :=
      .blank hbehind (.structural (by decide) _)
    have htokens : [[44]] ++ (Doc.object members).tokens.tail = memberTokens members := by
      cases hothers <;> rw [tokens_object, memberTokens] <;> rfl
    simp only [List.append_assoc, List.cons_append]
    rw [scan_blank hbefore, scan_quoted hraw, scan_blank hname, scan_structural (by decide),
      scan_blank hbetween, scan_text htext (.inr hend), scan_blank hbehind, scan_structural (by decide),
      scan_members hothers, found_found, found_found, found_found, found_found, List.append_assoc,
      List.append_assoc, List.append_assoc, htokens, tokens_object]
    rfl

end

end Sese.Json
