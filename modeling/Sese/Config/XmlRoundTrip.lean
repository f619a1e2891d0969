import Sese.Config.Xml
import Sese.Util.Splitting

/-!
# XML round trips

What `serialize` writes is read back by `deserialize` when the level is at least the depth of the
element, and is refused otherwise.
-/
namespace Sese.Xml

open Foundation
open Net.Http (byteOrder)
open Json (isSpace Tokens)

/-- A text without white space, NUL and the characters `<`, `>`, `/`, `=`, `"` and `!`. -/
structure Word (space : UInt8 → Bool) (text : Bytes) : Prop where
  ne_nil : text ≠ []
  octets : ∀ b ∈ text, space b = false ∧ b ∉ [0, 60, 62, 47, 61, 34, 33]

instance (space : UInt8 → Bool) (text : Bytes) : Decidable (Word space text) :=
  decidable_of_iff (text ≠ [] ∧ ∀ b ∈ text, space b = false ∧ b ∉ [0, 60, 62, 47, 61, 34, 33])
    ⟨fun h => ⟨h.1, h.2⟩, fun h => ⟨h.ne_nil, h.octets⟩⟩

structure Attribute (space : UInt8 → Bool) (attr : Bytes × Bytes) : Prop where
  name : Word space attr.1
  quote : (34 : UInt8) ∉ attr.2
  nul : (0 : UInt8) ∉ attr.2

instance (space : UInt8 → Bool) (attr : Bytes × Bytes) : Decidable (Attribute space attr) :=
  decidable_of_iff (Word space attr.1 ∧ (34 : UInt8) ∉ attr.2 ∧ (0 : UInt8) ∉ attr.2)
    ⟨fun h => ⟨h.1, h.2.1, h.2.2⟩, fun h => ⟨h.name, h.quote, h.nul⟩⟩

/-- Elements with words as names, and with children or a text of words or neither. -/
inductive Written (space : UInt8 → Bool) : Element → Prop
  | empty {name : Bytes} {attributes : OrdMap byteOrder Bytes} : Word space name →
    (∀ attr ∈ attributes.entries, Attribute space attr) → Written space { name, attributes }
  | text {name : Bytes} {attributes : OrdMap byteOrder Bytes} {words : List Bytes} :
    Word space name → (∀ attr ∈ attributes.entries, Attribute space attr) → words ≠ [] →
    (∀ word ∈ words, Word space word) →
    Written space { name, attributes, value := [32].intercalate words }
  | parent {name : Bytes} {attributes : OrdMap byteOrder Bytes} {elements : List Element} :
    Word space name → (∀ attr ∈ attributes.entries, Attribute space attr) → elements ≠ [] →
    (∀ element ∈ elements, Written space element) → Written space { name, attributes, elements }

mutual

def Element.depth : Element → ℕ
  | ⟨_, _, _, elements⟩ => depthAll elements + 1

def depthAll : List Element → ℕ
  | [] => 0
  | element :: elements => max element.depth (depthAll elements)

end

def attributeTokens (attr : Bytes × Bytes) : Tokens := [attr.1, [61], attr.2]

/-- The tokens behind `</`. -/
def endTokens (name : Bytes) : Tokens := [[60], [47], name, [62]]

mutual

/-- The tokens of an element behind the first bracket. -/
def Element.tokens : Element → Tokens
  | ⟨name, value, attributes, elements⟩ =>
    name :: (attributes.entries.flatMap attributeTokens ++
      if elements ≠ [] then [62] :: (tokensAll elements ++ endTokens name)
      else if value = [] then [[47], [62]]
      else [62] :: (pieces value [32] ++ endTokens name))

def tokensAll : List Element → Tokens
  | [] => []
  | element :: elements => [60] :: (element.tokens ++ tokensAll elements)

end

def Breaks (rest : Bytes) : Prop := ∃ ch ∈ rest.head?, ch = 32 ∨ ch = 62 ∨ ch = 60 ∨ ch = 47

@[simp] theorem push_nil (tokens : Tokens) : push [] tokens = tokens := rfl

theorem push_word {builder : Bytes} (h : builder ≠ []) (tokens : Tokens) :
    push builder tokens = builder :: tokens := if_neg h

theorem scan_break {rest : Bytes} (h : Breaks rest) (builder : Bytes) :
    tokenizer false builder rest = push builder (tokenizer false [] rest) := by
  obtain ⟨ch, hch, hbreak⟩ := h
  cases rest with
  | nil => cases hch
  | cons b rest =>
    obtain rfl : b = ch := Option.some.inj hch
    rcases hbreak with rfl | rfl | rfl | rfl
    · rfl
    · rfl
    · rfl
    · rfl

theorem scan_sign {ch : UInt8} (h : ch = 62 ∨ ch = 60 ∨ ch = 47) (rest : Bytes) :
    tokenizer false [] (ch :: rest) = [ch] :: tokenizer false [] rest := by
  rcases h with rfl | rfl | rfl
  · rfl
  · rfl
  · rfl

theorem scan_octets {word : Bytes} (h : Word isSpace word) (builder rest : Bytes) :
    tokenizer false builder (word ++ rest) = tokenizer false (builder ++ word) rest := by
  have hoctets := h.octets
  clear h
  induction word generalizing builder with
  | nil => simp
  | cons b word ih =>
    obtain ⟨hspace, hsign⟩ := hoctets b List.mem_cons_self
    simp only [List.mem_cons, List.not_mem_nil, or_false, not_or] at hsign
    obtain ⟨-, hless, hgreater, hslash, hequals, hquote, -⟩ := hsign
    have hbracket : ¬ (b = 62 ∨ b = 60 ∨ b = 47) := by
      rintro (hb | hb | hb)
      · exact hgreater hb
      · exact hless hb
      · exact hslash hb
    rw [List.cons_append, tokenizer, hspace, if_neg hbracket, if_neg hequals, if_neg hquote]
    simp only [Bool.false_eq_true, if_false]
    rw [ih _ fun c hc => hoctets c (List.mem_cons_of_mem _ hc), List.append_assoc, List.singleton_append]

theorem scan_word {word rest : Bytes} (h : Word isSpace word) (hrest : Breaks rest) :
    tokenizer false [] (word ++ rest) = word :: tokenizer false [] rest := by
  rw [scan_octets h, List.nil_append, scan_break hrest, push_word h.ne_nil]

theorem scan_quoted {text : Bytes} (h : (34 : UInt8) ∉ text) (builder rest : Bytes) :
    tokenizer true builder (text ++ 34 :: rest) = (builder ++ text) :: tokenizer false [] rest := by
  induction text generalizing builder with
  | nil => simp [tokenizer]
  | cons b text ih =>
    rw [List.mem_cons, not_or] at h
    rw [List.cons_append, tokenizer, if_neg (Ne.symm h.1), ih h.2, List.append_assoc,
      List.singleton_append]

theorem scan_attribute {attr : Bytes × Bytes} (h : Attribute isSpace attr) (rest : Bytes) :
    tokenizer false [] (serializeAttribute attr ++ rest) =
      attributeTokens attr ++ tokenizer false [] rest := by
  have hblank (input : Bytes) : tokenizer false [] (32 :: input) = tokenizer false [] input := rfl
  have hequals (input : Bytes) : tokenizer false attr.1 (61 :: 34 :: input) =
      attr.1 :: [61] :: tokenizer true [] input := rfl
  simp only [serializeAttribute, List.cons_append, List.append_assoc, List.nil_append]
  rw [hblank, scan_octets h.name, List.nil_append, hequals, scan_quoted h.quote]
  rfl

theorem scan_attributes {attributes : List (Bytes × Bytes)}
    (h : ∀ attr ∈ attributes, Attribute isSpace attr) (rest : Bytes) :
    tokenizer false [] (attributes.flatMap serializeAttribute ++ rest) =
      attributes.flatMap attributeTokens ++ tokenizer false [] rest := by
  induction attributes with
  | nil => rfl
  | cons attr attributes ih =>
    rw [List.flatMap_cons, List.flatMap_cons, List.append_assoc, List.append_assoc,
      scan_attribute (h attr List.mem_cons_self), ih fun a ha => h a (List.mem_cons_of_mem _ ha)]

theorem scan_words {words : List Bytes} (h : ∀ word ∈ words, Word isSpace word) (rest : Bytes) :
    tokenizer false [] ([32].intercalate words ++ 60 :: rest) =
      words ++ tokenizer false [] (60 :: rest) := by
  induction words with
  | nil => rfl
  | cons word words ih =>
    have hword := h word List.mem_cons_self
    have hwords := ih fun w hw => h w (List.mem_cons_of_mem _ hw)
    cases words with
    | nil =>
      rw [List.intercalate_singleton, scan_word hword ⟨60, rfl, by decide⟩]
      rfl
    | cons next words =>
      have hblank (input : Bytes) : tokenizer false [] (32 :: input) = tokenizer false [] input := rfl
      rw [List.intercalate_cons_cons, List.append_assoc, List.append_assoc,
        scan_word hword ⟨32, rfl, by decide⟩, List.singleton_append, hblank, hwords]
      rfl

theorem breaks_attributes {attributes : List (Bytes × Bytes)} {rest : Bytes} (h : Breaks rest) :
    Breaks (attributes.flatMap serializeAttribute ++ rest) := by
  cases attributes with
  | nil => exact h
  | cons attr attributes => exact ⟨32, rfl, .inl rfl⟩

theorem scan_start {name : Bytes} {attributes : List (Bytes × Bytes)} (hname : Word isSpace name)
    (hattributes : ∀ attr ∈ attributes, Attribute isSpace attr) {rest : Bytes} (h : Breaks rest) :
    tokenizer false [] (name ++ attributes.flatMap serializeAttribute ++ rest) =
      name :: (attributes.flatMap attributeTokens ++ tokenizer false [] rest) := by
  rw [List.append_assoc, scan_word hname (breaks_attributes h), scan_attributes hattributes]

theorem scan_end {name : Bytes} (h : Word isSpace name) (rest : Bytes) :
    tokenizer false [] ([60, 47] ++ name ++ [62] ++ rest) =
      endTokens name ++ tokenizer false [] rest := by
  simp only [List.cons_append, List.nil_append, List.append_assoc]
  rw [scan_sign (by decide), scan_sign (by decide), scan_word h ⟨62, rfl, by decide⟩,
    scan_sign (by decide)]
  rfl

theorem serializeAll_scan {elements : List Element} (h : ∀ element ∈ elements, ∀ rest,
    tokenizer false [] (serialize element ++ rest) = [60] :: (element.tokens ++ tokenizer false [] rest))
    (rest : Bytes) :
    tokenizer false [] (serializeAll elements ++ rest) = tokensAll elements ++ tokenizer false [] rest := by
  induction elements with
  | nil => rw [serializeAll, tokensAll]; rfl
  | cons element elements ih =>
    rw [serializeAll, tokensAll, List.append_assoc, h element List.mem_cons_self,
      ih fun e he => h e (List.mem_cons_of_mem _ he), List.cons_append, List.append_assoc]

theorem Word.space_notMem {word : Bytes} (h : Word isSpace word) : (32 : UInt8) ∉ word := by
  intro hmem
  cases (h.octets 32 hmem).1

theorem pieces_words {words : List Bytes} (h : ∀ word ∈ words, Word isSpace word) :
    pieces ([32].intercalate words) [32] = words := by
  apply pieces_intercalate fun word hword => (h word hword).space_notMem
  intro hlast
  exact (h [] (List.mem_of_getLast? hlast)).ne_nil rfl

theorem intercalate_ne_nil {words : List Bytes} (hne : words ≠ [])
    (h : ∀ word ∈ words, Word isSpace word) : [32].intercalate words ≠ [] := by
  intro hnil
  have hwords := pieces_words h
  rw [hnil] at hwords
  exact hne hwords.symm

theorem scan_serialize {element : Element} (h : Written isSpace element) (rest : Bytes) :
    tokenizer false [] (serialize element ++ rest) =
      [60] :: (element.tokens ++ tokenizer false [] rest) := by
  induction h generalizing rest with
  | empty hname hattributes =>
    rw [serialize, Element.tokens]
    simp only [ne_eq, not_true_eq_false, if_false, if_true, List.cons_append]
    rw [scan_sign (by decide), List.append_assoc,
      scan_start hname hattributes ⟨47, rfl, by decide⟩, List.cons_append, List.singleton_append,
      scan_sign (by decide), scan_sign (by decide), List.append_assoc]
    rfl
  | @text name attributes words hname hattributes hne hwords =>
    rw [serialize, Element.tokens, if_neg (intercalate_ne_nil hne hwords),
      if_neg (intercalate_ne_nil hne hwords), pieces_words hwords]
    simp only [ne_eq, not_true_eq_false, if_false, List.cons_append]
    rw [scan_sign (by decide), List.append_assoc,
      scan_start hname hattributes ⟨62, rfl, by decide⟩, List.cons_append, scan_sign (by decide)]
    have hend : [32].intercalate words ++ [60, 47] ++ name ++ [62] ++ rest =
        [32].intercalate words ++ 60 :: (47 :: (name ++ [62] ++ rest)) := by simp
    have hclose := scan_end hname rest
    rw [hend, scan_words hwords]
    simp only [List.cons_append, List.nil_append, List.append_assoc] at hclose ⊢
    rw [hclose]
  | @parent name attributes elements hname hattributes hne _ ih =>
    rw [serialize, Element.tokens, if_pos hne, if_pos hne]
    simp only [List.cons_append]
    rw [scan_sign (by decide), List.append_assoc,
      scan_start hname hattributes ⟨62, rfl, by decide⟩, List.cons_append, scan_sign (by decide)]
    have hend : serializeAll elements ++ [60, 47] ++ name ++ [62] ++ rest =
        serializeAll elements ++ ([60, 47] ++ name ++ [62] ++ rest) := by simp
    rw [hend, serializeAll_scan ih, scan_end hname]
    simp only [List.cons_append, List.append_assoc]

theorem Word.ne_sign {word : Bytes} (h : Word isSpace word) {b : UInt8}
    (hb : b ∈ [0, 60, 62, 47, 61, 34, 33]) : word ≠ [b] := by
  rintro rfl
  exact (h.octets b List.mem_cons_self).2 hb

theorem Word.ne_comment {word : Bytes} (h : Word isSpace word) : word ≠ bytes "!--" := by
  rintro rfl
  exact (h.octets 33 (by decide)).2 (by decide)

theorem readAttributes_tokens {l : List (Bytes × Bytes)} (h : ∀ attr ∈ l, Attribute isSpace attr)
    (attributes : OrdMap byteOrder Bytes) {front : Bytes} (hfront : front = [62] ∨ front = [47])
    (rest : Tokens) :
    readAttributes attributes (l.flatMap attributeTokens ++ front :: rest) =
      .ok (some (l.foldl (fun m attr => m.insert attr.1 attr.2) attributes, front :: rest)) := by
  induction l generalizing attributes with
  | nil =>
    rw [List.flatMap_nil, List.nil_append, readAttributes.eq_def]
    exact if_pos hfront
  | cons attr l ih =>
    have hname := (h attr List.mem_cons_self).name
    have hsign : ¬ (attr.1 = [62] ∨ attr.1 = [47]) :=
      not_or.mpr ⟨hname.ne_sign (by decide), hname.ne_sign (by decide)⟩
    simp only [List.flatMap_cons, attributeTokens, List.cons_append, List.nil_append]
    rw [readAttributes, if_neg hsign]
    simp only [ne_eq, not_true_eq_false, if_false]
    exact ih (fun a ha => h a (List.mem_cons_of_mem _ ha)) _

theorem readAttributes_entries {attributes : OrdMap byteOrder Bytes}
    (h : ∀ attr ∈ attributes.entries, Attribute isSpace attr) {front : Bytes}
    (hfront : front = [62] ∨ front = [47]) (rest : Tokens) :
    readAttributes .empty (attributes.entries.flatMap attributeTokens ++ front :: rest) =
      .ok (some (attributes, front :: rest)) := by
  have hmap : OrdMap.ofEntries byteOrder attributes.entries = attributes :=
    OrdMap.ext (OrdMap.ofEntries_entries attributes.sorted)
  rw [readAttributes_tokens h .empty hfront]
  exact congrArg (fun m => Except.ok (some (m, front :: rest))) hmap

theorem closing_end (element : Element) (rest : Tokens) :
    closing element (element.name :: [62] :: rest) = .returned element rest :=
  if_pos ⟨rfl, rfl⟩

theorem readText_words {words : List Bytes} (h : ∀ word ∈ words, Word isSpace word)
    (element : Element) (rest : Tokens) :
    readText element (words ++ (endTokens element.name ++ rest)) =
      .returned { element with value := [32].intercalate words } rest := by
  have hwords : ∀ word ∈ words, decide (word ≠ [60]) = true := by
    intro word hword
    exact decide_eq_true ((h word hword).ne_sign (by decide))
  have htake : (words ++ (endTokens element.name ++ rest)).takeWhile (fun token => token ≠ [60]) =
      words := by
    rw [List.takeWhile_append_of_pos hwords]
    simp [endTokens]
  have hdrop : (words ++ (endTokens element.name ++ rest)).dropWhile (fun token => token ≠ [60]) =
      endTokens element.name ++ rest := by
    rw [List.dropWhile_append_of_pos hwords]
    simp [endTokens]
  rw [readText, htake, hdrop]
  exact closing_end { element with value := [32].intercalate words } rest

theorem length_le_tokensAll (elements : List Element) : elements.length ≤ (tokensAll elements).length := by
  induction elements with
  | nil => exact Nat.zero_le _
  | cons element elements ih =>
    rw [tokensAll, List.length_cons, List.length_cons, List.length_append]
    omega

section Children

variable {create : Tokens → Except Fault (Option (Element × Tokens))} {level : ℕ}

/-- The recursive call reads the element when its depth is at most the level. -/
def Reads (create : Tokens → Except Fault (Option (Element × Tokens))) (level : ℕ)
    (element : Element) : Prop :=
  ∀ rest, create (element.tokens ++ rest) = .ok (if element.depth ≤ level then some (element, rest) else none)

theorem Written.tokens_cons {element : Element} (h : Written isSpace element) :
    ∃ behind, element.tokens = element.name :: behind ∧ Word isSpace element.name := by
  cases h with
  | empty hname _ => exact ⟨_, by rw [Element.tokens], hname⟩
  | text hname _ _ _ => exact ⟨_, by rw [Element.tokens], hname⟩
  | parent hname _ _ _ => exact ⟨_, by rw [Element.tokens], hname⟩

theorem Written.children {element : Element} (h : Written isSpace element) :
    ∀ e ∈ element.elements, Written isSpace e := by
  cases h with
  | empty _ _ => exact fun e he => absurd he List.not_mem_nil
  | text _ _ _ _ => exact fun e he => absurd he List.not_mem_nil
  | parent _ _ _ helements => exact helements

theorem readChildren_child {name : Bytes} (h : name ≠ [47]) (fuel : ℕ) (element : Element)
    (tokens : Tokens) :
    readChildren create (fuel + 1) element ([60] :: name :: tokens) =
      (create (name :: tokens)).bind fun child =>
        match child with
        | none => .ok .null
        | some (object, tokens) =>
          readChildren create fuel { element with elements := element.elements ++ [object] } tokens := by
  rw [readChildren.eq_def]
  simp only [ne_eq, not_true_eq_false, if_false]
  exact if_neg h

theorem readChildren_tokens {children : List Element} (hwritten : ∀ e ∈ children, Written isSpace e)
    (h : ∀ e ∈ children, Reads create level e) {fuel : ℕ} (hfuel : children.length < fuel)
    (element : Element) (rest : Tokens) :
    readChildren create fuel element (tokensAll children ++ (endTokens element.name ++ rest)) =
      .ok (if depthAll children ≤ level then
        .returned { element with elements := element.elements ++ children } rest else .null) := by
  induction children generalizing fuel element with
  | nil =>
    obtain ⟨fuel, rfl⟩ : ∃ k, fuel = k + 1 := ⟨fuel - 1, by omega⟩
    have hend : readChildren create (fuel + 1) element (endTokens element.name ++ rest) =
        .ok (closing element (element.name :: [62] :: rest)) := rfl
    simp only [tokensAll, depthAll, List.nil_append, List.append_nil, hend, closing_end, Nat.zero_le,
      if_true]
    cases element
    rfl
  | cons child children ih =>
    obtain ⟨fuel, rfl⟩ : ∃ k, fuel = k + 1 := ⟨fuel - 1, by omega⟩
    obtain ⟨behind, htokens, hname⟩ := (hwritten child List.mem_cons_self).tokens_cons
    have hread := h child List.mem_cons_self (tokensAll children ++ (endTokens element.name ++ rest))
    have hchild := ih (fun e he => hwritten e (List.mem_cons_of_mem _ he))
      (fun e he => h e (List.mem_cons_of_mem _ he)) (Nat.lt_of_succ_lt_succ hfuel)
      { element with elements := element.elements ++ [child] }
    have hslash : child.name ≠ [47] := hname.ne_sign (by decide)
    rw [htokens, List.cons_append] at hread
    rw [tokensAll, depthAll, List.cons_append, List.append_assoc, htokens, List.cons_append,
      readChildren_child hslash, hread]
    by_cases hdepth : child.depth ≤ level
    · rw [if_pos hdepth]
      refine hchild.trans ?_
      simp [hdepth]
    · rw [if_neg hdepth, if_neg (by omega)]
      rfl

theorem readElement_start {name : Bytes} {attributes : OrdMap byteOrder Bytes}
    (h : ∀ attr ∈ attributes.entries, Attribute isSpace attr) {front : Bytes}
    (hfront : front = [62] ∨ front = [47]) (rest : Tokens) :
    readElement create (name :: (attributes.entries.flatMap attributeTokens ++ front :: rest)) =
      readContent create { name, attributes } (front :: rest) := by
  have hread := readAttributes_entries h hfront rest
  cases htokens : attributes.entries.flatMap attributeTokens ++ front :: rest with
  | nil => simp at htokens
  | cons token tokens =>
    rw [htokens] at hread
    rw [readElement, hread]
    · rfl
    · exact List.cons_ne_nil _ _

/-- The element is read by a round when its children are read by the recursive call. -/
theorem readElement_tokens {element : Element} (h : Written isSpace element)
    (hchildren : ∀ e ∈ element.elements, Reads create level e) (rest : Tokens) :
    readElement create (element.tokens ++ rest) =
      .ok (if element.depth ≤ level + 1 then .returned element rest else .null) := by
  cases h with
  | @empty name attributes hname hattributes =>
    rw [Element.tokens, Element.depth, depthAll, if_pos (Nat.le_add_left _ _)]
    simp only [ne_eq, not_true_eq_false, if_false, if_true, List.cons_append, List.append_assoc]
    rw [readElement_start hattributes (.inr rfl)]
    rfl
  | @text name attributes words hname hattributes hne hwords =>
    obtain ⟨word, others, hcons⟩ := List.exists_cons_of_ne_nil hne
    have hbracket : word ≠ [60] := by
      apply Word.ne_sign (hwords word _) (by decide)
      rw [hcons]
      exact List.mem_cons_self
    have hcontent : readContent create { name, attributes }
        ([62] :: (words ++ (endTokens name ++ rest))) =
          .ok (readText { name, attributes } (words ++ (endTokens name ++ rest))) := by
      rw [hcons]
      exact if_neg hbracket
    rw [Element.tokens, Element.depth, depthAll, if_pos (Nat.le_add_left _ _),
      if_neg (intercalate_ne_nil hne hwords), pieces_words hwords]
    simp only [ne_eq, not_true_eq_false, if_false, List.cons_append, List.append_assoc]
    rw [readElement_start hattributes (.inl rfl), hcontent]
    exact congrArg Except.ok (readText_words hwords { name, attributes } rest)
  | @parent name attributes elements hname hattributes hne helements =>
    obtain ⟨child, others, hcons⟩ := List.exists_cons_of_ne_nil hne
    have hcontent : readContent create { name, attributes }
        ([62] :: (tokensAll elements ++ (endTokens name ++ rest))) =
          readChildren create ((tokensAll elements ++ (endTokens name ++ rest)).length + 1)
            { name, attributes } (tokensAll elements ++ (endTokens name ++ rest)) := by
      rw [hcons, tokensAll, List.cons_append, readContent.eq_def]
      dsimp only
      rw [if_neg (by decide), if_pos rfl]
    have hlength : elements.length < (tokensAll elements ++ (endTokens name ++ rest)).length + 1 := by
      rw [List.length_append]
      have hle := length_le_tokensAll elements
      omega
    have hread := readChildren_tokens helements hchildren hlength { name, attributes } rest
    rw [Element.tokens, Element.depth, if_pos hne]
    simp only [List.cons_append, List.append_assoc, Nat.add_le_add_iff_right]
    rw [readElement_start hattributes (.inl rfl), hcontent]
    exact hread

theorem Element.depth_pos (element : Element) : 0 < element.depth := by
  cases element
  rw [Element.depth]
  exact Nat.succ_pos _

theorem elementLoop_of_round {isSubElement : Bool} {token : Bytes} {tokens rest : Tokens}
    {element : Element} {p : Prop} [Decidable p]
    (h : round create isSubElement (token :: tokens) =
      .ok (.inl (if p then .returned element rest else .null))) (fuel : ℕ) :
    elementLoop create isSubElement (fuel + 1) none (token :: tokens) =
      .ok (if p then some (element, rest) else none) := by
  rw [elementLoop, h]
  by_cases hp : p
  · rw [if_pos hp, if_pos hp]
    rfl
  · rw [if_neg hp, if_neg hp]
    rfl

/-- The same element as a root and as a child. -/
theorem round_tokens {element : Element} (h : Written isSpace element)
    (hchildren : ∀ e ∈ element.elements, Reads create level e) (rest : Tokens) :
    round create false ([60] :: (element.tokens ++ rest)) =
      .ok (.inl (if element.depth ≤ level + 1 then .returned element rest else .null)) ∧
    round create true (element.tokens ++ rest) =
      .ok (.inl (if element.depth ≤ level + 1 then .returned element rest else .null)) := by
  have hread := readElement_tokens h hchildren rest
  obtain ⟨behind, htokens, hname⟩ := h.tokens_cons
  have hcomment : (element.tokens ++ rest).head? ≠ some (bytes "!--") := by
    rw [htokens]
    exact fun hhead => hname.ne_comment (Option.some.inj hhead)
  have hne : element.tokens ++ rest ≠ [] := by
    rw [htokens]
    exact List.cons_ne_nil _ _
  constructor
  · simp only [round, Bool.false_eq_true, ne_eq, not_true_eq_false, if_false, if_neg hne,
      if_neg hcomment, hread]
    rfl
  · simp only [round, if_true, if_neg hcomment, hread]
    rfl

end Children

theorem createElement_child {element : Element} (h : Written isSpace element) (level : ℕ) :
    Reads (createElement level true) level element := by
  induction level generalizing element with
  | zero =>
    intro rest
    rw [if_neg (by have hpos := element.depth_pos; omega)]
    rfl
  | succ level ih =>
    intro rest
    have hround := (round_tokens h (fun e he => ih (h.children e he)) rest).2
    obtain ⟨behind, htokens, -⟩ := h.tokens_cons
    rw [htokens, List.cons_append] at hround ⊢
    exact elementLoop_of_round hround _

theorem createElement_root {element : Element} (h : Written isSpace element) (level : ℕ)
    (rest : Tokens) :
    createElement level false ([60] :: (element.tokens ++ rest)) =
      .ok (if element.depth ≤ level then some (element, rest) else none) := by
  cases level with
  | zero =>
    rw [if_neg (by have hpos := element.depth_pos; omega)]
    rfl
  | succ level =>
    have hround := (round_tokens h (fun e he => createElement_child (h.children e he) level) rest).1
    exact elementLoop_of_round hround _

/-- What is written is read back, and is refused when the element is deeper than the level. -/
theorem deserialize_serialize (element : Element) (h : Written isSpace element) (level : ℕ) :
    deserialize (serialize element) level =
      .ok (if element.depth ≤ level then some element else none) := by
  have hscan := scan_serialize h []
  rw [List.append_nil] at hscan
  have hroot := createElement_root h level (tokenizer false [] [])
  rw [deserialize, hscan, hroot]
  by_cases hdepth : element.depth ≤ level
  · rw [if_pos hdepth, if_pos hdepth]
    rfl
  · rw [if_neg hdepth, if_neg hdepth]
    rfl

/-- `<a x="" y="/>"><b/><c>hi you</c></a>` -/
def sampleElement : Element where
  name := bytes "a"
  attributes := .ofEntries byteOrder [(bytes "x", []), (bytes "y", bytes "/>")]
  elements := [{ name := bytes "b" }, { name := bytes "c", value := bytes "hi you" }]

theorem sampleElement_written : Written isSpace sampleElement := by
  have hleaf : Written isSpace { name := bytes "b" } := .empty (by decide) (by decide)
  have htext : Written isSpace { name := bytes "c", value := bytes "hi you" } :=
    @Written.text isSpace (bytes "c") .empty [bytes "hi", bytes "you"] (by decide) (by decide) (by decide)
      (by decide)
  apply Written.parent (by decide) (by decide) (by decide)
  intro element h
  rcases List.mem_cons.mp h with rfl | h
  · exact hleaf
  · obtain rfl := List.mem_singleton.mp h
    exact htext

theorem deserialize_sampleElement :
    deserialize (serialize sampleElement) 2 = .ok (some sampleElement) ∧
      deserialize (serialize sampleElement) 1 = .ok none :=
  ⟨deserialize_serialize sampleElement sampleElement_written 2,
    deserialize_serialize sampleElement sampleElement_written 1⟩

/-- A backspace ends a token. -/
theorem deserialize_backspaceName :
    Written isspace { name := [97, 8, 98] } ∧ Element.depth { name := [97, 8, 98] } ≤ 1 ∧
      deserialize (serialize { name := [97, 8, 98] }) 1 = .ok none :=
  ⟨.empty (by decide) (by decide), by decide, by rfl⟩

end Sese.Xml
