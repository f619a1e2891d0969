import Sese.Config.YamlTermination

/-!
# The rows of a YAML text

What `parseBasic` and the tokenizer make of the scalars and keys of a plain tree, and the rows that
the tree is written in.
-/
namespace Sese.Yaml

open Foundation
open Json (Tokens Waiting)

def isalnum (b : UInt8) : Bool := isdigit b ∨ 65 ≤ b.toNat ∧ b.toNat ≤ 90 ∨ 97 ≤ b.toNat ∧ b.toNat ≤ 122

structure Word (text : Bytes) : Prop where
  ne_nil : text ≠ []
  octets : ∀ b ∈ text, isalnum b

def keywords : List Bytes := [bytes "null", bytes "true", bytes "yes", bytes "false", bytes "no"]

variable {δ : Type}

/-- A tree of this kind is made of lists and dictionaries that are not empty, with words as keys, and
of null, booleans, integers of 64 bits, and words that spell none of these. -/
def Plain : Value δ → Prop
  | .int i => -2 ^ 63 ≤ i ∧ i < 2 ^ 63
  | .string s => Word s ∧ (∀ word ∈ keywords, strcmpDoNotCase s word = false) ∧ ¬ ∀ b ∈ s, isdigit b
  | .list values => values ≠ []
  | .dict members => members ≠ [] ∧ Value.Sorted members ∧ ∀ e ∈ members, Word e.1
  | .double _ => False
  | .blob _ => False
  | _ => True

def Nonneg : Value δ → Prop
  | .int i => 0 ≤ i
  | _ => True

structure Token (text : Bytes) : Prop where
  ne_nil : text ≠ []
  octets : ∀ b ∈ text, b ∉ [10, 13, 32, 34, 39, 45, 58]

theorem Word.token {text : Bytes} (h : Word text) : Token text := by
  refine ⟨h.ne_nil, fun b hb hmem => ?_⟩
  have halnum := h.octets b hb
  simp only [List.mem_cons, List.not_mem_nil, or_false] at hmem
  rcases hmem with rfl | rfl | rfl | rfl | rfl | rfl | rfl
  all_goals exact absurd halnum (by decide)

theorem Word.nul_notMem {text : Bytes} (h : Word text) : (0 : UInt8) ∉ text :=
  fun hmem => absurd (h.octets 0 hmem) (by decide)

theorem word_toDecimal (n : ℕ) : Word (toDecimal n) := by
  refine ⟨toDecimal_ne_nil n, fun b hb => ?_⟩
  simp [isalnum, isdigit_toDecimal n b hb]

theorem tokenizer_word_append {text : Bytes} (h : ∀ b ∈ text, b ≠ 58) (builder rest : Bytes) :
    tokenizer (.word builder) (text ++ rest) = tokenizer (.word (builder ++ text)) rest := by
  induction text generalizing builder with
  | nil => simp
  | cons b text ih =>
    rw [List.cons_append, tokenizer, if_neg (h b List.mem_cons_self),
      ih fun c hc => h c (List.mem_cons_of_mem _ hc)]
    simp

theorem Token.scan {text : Bytes} (h : Token text) (rest : Bytes) :
    tokenizer .between (text ++ rest) = tokenizer (.word text) rest := by
  obtain ⟨b, text, rfl⟩ := List.exists_cons_of_ne_nil h.ne_nil
  have hb := h.octets b List.mem_cons_self
  simp only [List.mem_cons, List.not_mem_nil, or_false, not_or] at hb
  obtain ⟨-, -, hspace, hquot2, hquot1, hminus, hcolon⟩ := hb
  rw [List.cons_append, tokenizer, if_neg hquot1, if_neg hquot2, if_neg hcolon, if_neg hminus,
    if_neg hspace, tokenizer_word_append]
  · rfl
  · intro c hc heq
    apply h.octets c (List.mem_cons_of_mem _ hc)
    rw [heq]
    decide

theorem Token.tokenizer_eq {text : Bytes} (h : Token text) : tokenizer .between text = [text] := by
  have hscan := h.scan []
  rw [List.append_nil] at hscan
  rw [hscan, tokenizer, Scanning.last, if_neg h.ne_nil]

theorem Token.tokenizer_key {text : Bytes} (h : Token text) (rest : Bytes) :
    tokenizer .between (text ++ 58 :: 32 :: rest) = text :: [58] :: tokenizer .between rest := by
  rw [h.scan, tokenizer]
  rfl

/-- What `streamifyBasic` writes in front of the end of the line. -/
def basicText [Double δ] : Value δ → Bytes
  | .null => [126]
  | .string data => data
  | value => value.toStringBasic

theorem strcmpDoNotCase_of_digits {text : Bytes} (hne : text ≠ []) (h : ∀ b ∈ text, isdigit b)
    {word : Bytes} (hword : word ∈ keywords) : strcmpDoNotCase text word = false := by
  obtain ⟨b, text, rfl⟩ := List.exists_cons_of_ne_nil hne
  have hb := h b List.mem_cons_self
  simp only [isdigit, decide_eq_true_eq] at hb
  have hnul : b ≠ 0 := by
    rintro rfl
    exact absurd hb.1 (by decide)
  have hfold : foldCase (b :: text) = b.toNat :: foldCase text := by
    rw [foldCase, cstr, List.takeWhile_cons_of_pos (by simpa using hnul), List.map_cons, tolower,
      if_neg (by omega)]
    rfl
  have hhead : ∀ w ∈ keywords, ∀ n ∈ (foldCase w).head?, 97 ≤ n := by decide
  rw [strcmpDoNotCase, decide_eq_false_iff_not, hfold]
  intro heq
  have hle := hhead word hword b.toNat (by rw [← heq]; rfl)
  omega

variable [Strtod δ]

theorem parseBasic_word {text : Bytes} (h : Word text)
    (hkeywords : ∀ word ∈ keywords, strcmpDoNotCase text word = false) :
    (parseBasic text : Value δ) =
      if (strtol text).2 = [] then .int (strtol text).1 else .string text := by
  have htilde : text ≠ [126] := by
    rintro rfl
    exact absurd (h.octets 126 List.mem_cons_self) (by decide)
  have hpoint : (46 : UInt8) ∉ text := fun hmem => absurd (h.octets 46 hmem) (by decide)
  have hword (word : Bytes) (hmem : word ∈ keywords) : ¬ (strcmpDoNotCase text word = true) := by
    rw [hkeywords word hmem]
    exact Bool.false_ne_true
  rw [parseBasic, if_neg, if_neg, if_neg, if_neg hpoint, cstr_eq_self h.nul_notMem]
  · exact not_or.mpr ⟨hword _ (by decide), hword _ (by decide)⟩
  · exact not_or.mpr ⟨hword _ (by decide), hword _ (by decide)⟩
  · exact not_or.mpr ⟨hword _ (by decide), not_or.mpr ⟨htilde, h.ne_nil⟩⟩

theorem strtol_toDecimal {n : ℕ} (h : n < 2 ^ 63) : strtol (toDecimal n) = ((n : ℤ), []) := by
  have hcstr : cstr (toDecimal n) = toDecimal n := cstr_eq_self (not_mem_toDecimal (by decide) n)
  have hdrop : (toDecimal n).dropWhile isspace = toDecimal n :=
    dropWhile_of_head fun b hb => not_isspace_of_isdigit (head_toDecimal n b hb)
  have hscan := (numeral_toDecimal n).scanInt_eq le_rfl
  rw [List.nil_append, List.append_nil] at hscan
  have hvalue : signedValue [] (toDecimal n) = n := by
    rw [signedValue, if_neg (by decide), digitsValue_toDecimal]
  simp only [strtol, hcstr, hdrop, hscan, hvalue]
  rw [Prod.mk.injEq]
  exact ⟨by omega, rfl⟩

theorem strtol_word {text : Bytes} (h : Word text) (hletter : ¬ ∀ b ∈ text, isdigit b) :
    (strtol text).2 ≠ [] := by
  have hhead : ∀ b ∈ text.head?, ¬ isspace b ∧ b ≠ 43 ∧ b ≠ 45 := by
    intro b hb
    have halnum := h.octets b (List.mem_of_head? hb)
    refine ⟨?_, ?_, ?_⟩
    · simp only [isalnum, isdigit, isspace, decide_eq_true_eq] at halnum ⊢
      rintro (rfl | hspace)
      · revert halnum
        decide
      · omega
    · rintro rfl
      exact absurd halnum (by decide)
    · rintro rfl
      exact absurd halnum (by decide)
  have hdrop : (cstr text).dropWhile isspace = text := by
    rw [cstr_eq_self h.nul_notMem]
    exact dropWhile_of_head fun b hb => (hhead b hb).1
  intro hnil
  unfold strtol at hnil
  rw [hdrop] at hnil
  dsimp only at hnil
  split at hnil
  case h_1 hscan =>
    rw [cstr_eq_self h.nul_notMem] at hnil
    exact h.ne_nil hnil
  case h_2 n rest hscan =>
    obtain rfl : rest = [] := hnil
    obtain ⟨sign, digits, rest, htext, hnumeral, -⟩ := numeral_of_scanInt hscan
    rw [htext, hnumeral.scanInt_eq le_rfl] at hscan
    obtain rfl : rest = [] := (Prod.mk.inj (Option.some.inj hscan)).2
    rcases hnumeral.sign with rfl | rfl | rfl
    · apply hletter
      rw [htext, List.append_nil]
      exact hnumeral.digits
    · exact (hhead 43 (by rw [htext]; rfl)).2.1 rfl
    · exact (hhead 45 (by rw [htext]; rfl)).2.2 rfl

theorem scalar_text {value : Value δ} (hplain : Plain value) (hnonneg : Nonneg value)
    (hscalar : value.isContainer = false) :
    Token (basicText value) ∧ parseBasic (basicText value) = value := by
  cases value with
  | null =>
    have htoken : Token [126] := ⟨by decide, by decide⟩
    exact ⟨htoken, rfl⟩
  | bool b =>
    have hfalse : Token (bytes "false") := ⟨by decide, by decide⟩
    have htrue : Token (bytes "true") := ⟨by decide, by decide⟩
    cases b
    · exact ⟨hfalse, rfl⟩
    · exact ⟨htrue, rfl⟩
  | int i =>
    obtain ⟨n, rfl⟩ := Int.eq_ofNat_of_zero_le hnonneg
    have htext : basicText (Value.int (n : ℤ) : Value δ) = toDecimal n := by
      change signedDecimal n = toDecimal n
      rw [signedDecimal, if_neg (by omega), Int.natAbs_natCast]
    have hkeywords := fun word => @strcmpDoNotCase_of_digits _ (toDecimal_ne_nil n) (isdigit_toDecimal n) word
    have hlt : n < 2 ^ 63 := by
      have hrange := hplain.2
      omega
    rw [htext, parseBasic_word (word_toDecimal n) hkeywords, strtol_toDecimal hlt, if_pos rfl]
    exact ⟨(word_toDecimal n).token, rfl⟩
  | string s =>
    obtain ⟨hword, hkeywords, hletter⟩ := hplain
    refine ⟨hword.token, ?_⟩
    rw [basicText, parseBasic_word hword hkeywords, if_neg (strtol_word hword hletter)]
  | double _ => exact hplain.elim
  | blob _ => exact hplain.elim
  | list _ => cases hscalar
  | dict _ => cases hscalar

/-- A row of the text: the spaces in front, and what is behind them. -/
abbrev Row := ℕ × Bytes

def unlines (rows : List Row) : Bytes :=
  rows.flatMap fun row => List.replicate row.1 32 ++ (row.2 ++ [10])

/-- How many spaces `indentation` writes. -/
def indent (count level : ℕ) (prefixed : Bool) : ℕ :=
  if count ≠ 1 ∨ prefixed then level * 2 % 2 ^ 32 % 1024 else 0

/-- The first row begins with a mark and the spaces of the list that it is an element of. -/
def mark (spaces : ℕ) : List Row → List Row
  | [] => []
  | (_, text) :: rows => (spaces, 45 :: 32 :: text) :: rows

mutual

/-- The rows of a value at a level, as the writer writes them. Those of an element begin without
spaces, since the mark is in front. -/
def rows (level : ℕ) (prefixed : Bool) : Value δ → List Row
  | .list values => elementRows level 0 prefixed values
  | .dict members => memberRows level 0 prefixed members
  | value => [(0, basicText value)]

/-- The rows of the elements from one on. -/
def elementRows (level count : ℕ) (prefixed : Bool) : List (Value δ) → List Row
  | [] => []
  | value :: values =>
    let count := (count + 1) % 2 ^ 32
    mark (indent count level prefixed) (rows ((level + 1) % 2 ^ 32) false value) ++
      elementRows level count (prefixed || value.isContainer) values

/-- The rows of the members from one on. -/
def memberRows (level count : ℕ) (prefixed : Bool) : List (Bytes × Value δ) → List Row
  | [] => []
  | (key, value) :: members =>
    let count := (count + 1) % 2 ^ 32
    (if value.isContainer then
      (indent count level prefixed, key ++ [58, 32]) :: rows ((level + 1) % 2 ^ 32) true value
    else [(indent count level prefixed, key ++ 58 :: 32 :: basicText value)]) ++
      memberRows level count (prefixed || value.isContainer) members

end

end Sese.Yaml
