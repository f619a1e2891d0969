import Sese.Config.YamlTermination

/-!
# Blank lines in YAML

A line that is empty is left out. A line of spaces has no text behind them, which is how the reader
of `parse` sees the end of the input.
-/
namespace Sese.Yaml

open Foundation

abbrev IsEnd (ch : UInt8) : Prop := ch = 13 ∨ ch = 10

def EndsLine (text : Bytes) : Prop := ∃ front ch, IsEnd ch ∧ text = front ++ [ch]

theorem textLines_break (builder front rest : Bytes) {ch : UInt8} (hch : IsEnd ch) :
    textLines builder (front ++ ch :: rest) =
      textLines builder (front ++ [ch]) ++ textLines [] rest := by
  induction front generalizing builder with
  | nil =>
    rw [List.nil_append, List.nil_append, textLines, textLines, if_pos hch, if_pos hch]
    by_cases hnil : builder = []
    · rw [if_pos hnil, if_pos hnil]
      rfl
    · rw [if_neg hnil, if_neg hnil]
      rfl
  | cons b front ih =>
    rw [List.cons_append, List.cons_append, textLines, textLines]
    split_ifs
    · exact ih []
    · rw [ih [], List.cons_append]
    · exact ih (builder ++ [b])

theorem EndsLine.textLines {before : Bytes} (h : EndsLine before) (rest : Bytes) :
    textLines [] (before ++ rest) = textLines [] before ++ textLines [] rest := by
  obtain ⟨front, ch, hch, rfl⟩ := h
  rw [List.append_assoc, List.singleton_append, textLines_break [] front rest hch]

theorem textLines_ends {ending : Bytes} (h : ∀ ch ∈ ending, IsEnd ch) (rest : Bytes) :
    textLines [] (ending ++ rest) = textLines [] rest := by
  induction ending with
  | nil => rfl
  | cons ch ending ih =>
    obtain ⟨hch, hending⟩ := List.forall_mem_cons.mp h
    rw [List.cons_append, textLines, if_pos hch, if_pos rfl, ih hending]

def blankLine (k : ℕ) (ending : Bytes) : Bytes := List.replicate k 32 ++ ending

theorem textLines_spaces (k : ℕ) (builder rest : Bytes) :
    textLines builder (List.replicate k 32 ++ rest) =
      textLines (builder ++ List.replicate k 32) rest := by
  induction k generalizing builder with
  | zero => rw [List.replicate_zero, List.nil_append, List.append_nil]
  | succ k ih =>
    rw [List.replicate_succ, List.cons_append, textLines, if_neg (by decide), ih, List.append_assoc,
      List.singleton_append]

theorem textLines_blankLine {k : ℕ} (hk : k ≠ 0) {ending : Bytes} (hne : ending ≠ [])
    (hending : ∀ ch ∈ ending, IsEnd ch) (rest : Bytes) :
    textLines [] (blankLine k ending ++ rest) = List.replicate k 32 :: textLines [] rest := by
  obtain ⟨ch, ending, rfl⟩ := List.exists_cons_of_ne_nil hne
  obtain ⟨hch, hothers⟩ := List.forall_mem_cons.mp hending
  rw [blankLine, List.append_assoc, textLines_spaces, List.nil_append, List.cons_append, textLines,
    if_pos hch, if_neg (by simpa using hk), textLines_ends hothers]

abbrev Blank (line : Bytes) : Prop := line.drop (spaces line) = []

theorem spaces_replicate (k : ℕ) : spaces (List.replicate k 32) = k := by
  rw [spaces, List.takeWhile_replicate]
  simp

theorem blank_replicate (k : ℕ) : Blank (List.replicate k 32) := by
  rw [Blank, spaces_replicate]
  simp

theorem indented_append (front back : List Bytes) :
    Indented (front ++ back) ↔ Indented front ∧ ((∀ line ∈ front, ¬ Blank line) → Indented back) := by
  induction front with
  | nil => simp [Indented]
  | cons line front ih =>
    rw [List.cons_append, Indented, Indented, ih, List.forall_mem_cons, Blank]
    tauto

theorem queueOf_append {front : List Bytes} (h : ∀ line ∈ front, ¬ Blank line) (back : List Bytes) :
    queueOf (front ++ back) = queueOf front ++ queueOf back := by
  induction front with
  | nil => rfl
  | cons line front ih =>
    obtain ⟨hline, hfront⟩ := List.forall_mem_cons.mp h
    rw [List.cons_append, queueOf, if_neg hline, ih hfront, queueOf, if_neg hline, List.cons_append]

/-- Nothing is read behind a line of spaces. -/
theorem queueOf_append_of_blank {front : List Bytes} (h : ∃ line ∈ front, Blank line)
    (back : List Bytes) : queueOf (front ++ back) = queueOf front := by
  induction front with
  | nil => simp at h
  | cons line front ih =>
    rw [List.cons_append, queueOf, queueOf]
    by_cases hline : line.drop (spaces line) = []
    · rw [if_pos hline, if_pos hline]
    · rw [if_neg hline, if_neg hline, ih (((List.exists_mem_cons_iff Blank line front).mp h).resolve_left hline)]

def Ended (lines : List Bytes) : Prop := ∀ line ∈ lines.head?, spaces line < 2 ^ 31 ∧ Blank line

theorem Ended.reads {lines : List Bytes} (h : Ended lines) : Indented lines ∧ queueOf lines = [] := by
  cases lines with
  | nil => exact ⟨trivial, rfl⟩
  | cons line lines =>
    obtain ⟨hspaces, hblank⟩ := h line rfl
    exact ⟨⟨hspaces, fun hne => absurd hblank hne⟩, if_pos hblank⟩

variable (δ : Type) [Strtod δ]

/-- `parse` returns the same for both texts. -/
def SameResult (text text' : Bytes) : Prop :=
  ∀ value : Value δ, (∃ fuel, parse fuel text = .ok value) ↔ ∃ fuel, parse fuel text' = .ok value

variable {δ}

theorem sameResult_of_lines {text text' : Bytes}
    (hindented : Indented (textLines [] text) ↔ Indented (textLines [] text'))
    (hqueue : Indented (textLines [] text) →
      queueOf (textLines [] text) = queueOf (textLines [] text')) : SameResult δ text text' := by
  intro value
  rw [parse_eq_iff, parse_eq_iff, ← hindented]
  apply and_congr_right
  intro h
  rw [hqueue h]

/-- What is behind the end that the reader sees is not read. -/
theorem sameResult_ended {before after : Bytes} (hbefore : EndsLine before)
    (hended : Ended (textLines [] after)) : SameResult δ (before ++ after) before := by
  apply sameResult_of_lines
  · rw [hbefore.textLines, indented_append]
    simp only [hended.reads.1, implies_true, and_true]
  · intro _
    rw [hbefore.textLines]
    by_cases hearlier : ∃ line ∈ textLines [] before, Blank line
    · rw [queueOf_append_of_blank hearlier]
    · have hall : ∀ line ∈ textLines [] before, ¬ Blank line := by simpa using hearlier
      rw [queueOf_append hall, hended.reads.2, List.append_nil]

theorem sameResult_cut {before ending : Bytes} (hbefore : EndsLine before) (hne : ending ≠ [])
    (hending : ∀ ch ∈ ending, IsEnd ch) (after : Bytes) {k : ℕ} (hk : k ≠ 0) (hspaces : k < 2 ^ 31) :
    SameResult δ (before ++ (blankLine k ending ++ after)) before := by
  apply sameResult_ended hbefore
  rw [textLines_blankLine hk hne hending]
  rintro line ⟨⟩
  exact ⟨by rwa [spaces_replicate], blank_replicate k⟩

theorem sameResult_blankLine {before ending : Bytes} (hbefore : EndsLine before) (hne : ending ≠ [])
    (hending : ∀ ch ∈ ending, IsEnd ch) (after : Bytes) {k : ℕ}
    (h : k = 0 ∨ (∃ line ∈ textLines [] before, Blank line) ∨
      k < 2 ^ 31 ∧ Ended (textLines [] after)) :
    SameResult δ (before ++ after) (before ++ (blankLine k ending ++ after)) := by
  by_cases hk : k = 0
  · subst hk
    have hsame : textLines [] (before ++ (blankLine 0 ending ++ after)) =
        textLines [] (before ++ after) := by
      rw [hbefore.textLines, hbefore.textLines, blankLine, List.replicate_zero, List.nil_append,
        textLines_ends hending]
    exact sameResult_of_lines (by rw [hsame]) fun _ => by rw [hsame]
  · rcases h.resolve_left hk with hblank | ⟨hspaces, hended⟩
    · have hnot : ¬ ∀ line ∈ textLines [] before, ¬ Blank line := by
        obtain ⟨line, hmem, hline⟩ := hblank
        exact fun hall => hall line hmem hline
      apply sameResult_of_lines
      · rw [hbefore.textLines, hbefore.textLines, indented_append, indented_append]
        simp only [hnot, false_imp_iff]
      · intro _
        rw [hbefore.textLines, hbefore.textLines, queueOf_append_of_blank hblank,
          queueOf_append_of_blank hblank]
    · intro value
      exact (sameResult_ended hbefore hended value).trans
        (sameResult_cut hbefore hne hending after hk hspaces value).symm

/-- Two dashes are a list with two elements, unless a line of spaces is between them. -/
theorem not_sameResult_dashes {k : ℕ} (hk : k ≠ 0) :
    ¬ SameResult δ ([45, 10] ++ [45, 10]) ([45, 10] ++ (blankLine k [10] ++ [45, 10])) := by
  have hbefore : EndsLine [45, 10] := ⟨[45], 10, .inr rfl, rfl⟩
  have hends : ∀ ch ∈ [(10 : UInt8)], IsEnd ch := by decide
  have hboth : ∃ fuel, parse fuel ([45, 10] ++ [45, 10]) = .ok (.list [.null, .null] : Value δ) :=
    (parse_eq_iff _ _).mpr ⟨⟨by decide, fun _ => ⟨by decide, fun _ => trivial⟩⟩,
      .more rfl (.more rfl (.done rfl))⟩
  intro hsame
  obtain ⟨-, hresult⟩ := (parse_eq_iff _ _).mp ((hsame _).mp hboth)
  rw [hbefore.textLines, textLines_blankLine hk (List.cons_ne_nil 10 []) hends,
    queueOf_append (by decide), queueOf, if_pos (blank_replicate k)] at hresult
  have hone : Delivers (flatten turn)
      (⟨.list [], none, [], [(0, [[45]])]⟩ : State δ) (.list [.null]) := .more rfl (.done rfl)
  have hvalues := hone.unique hresult
  cases hvalues

/-- A line of spaces between two lines changes nothing where the reader has ended before it or ends
right behind it. Everywhere it makes an end of the text, so that of these lines the empty one only
never changes anything. -/
theorem blankLine_unchanged :
    (∀ before ending after : Bytes, EndsLine before → ending ≠ [] → (∀ ch ∈ ending, IsEnd ch) →
      ∀ k, k = 0 ∨ (∃ line ∈ textLines [] before, Blank line) ∨
          k < 2 ^ 31 ∧ Ended (textLines [] after) →
        SameResult δ (before ++ after) (before ++ (blankLine k ending ++ after))) ∧
    (∀ before ending after : Bytes, EndsLine before → ending ≠ [] → (∀ ch ∈ ending, IsEnd ch) →
      ∀ k, k ≠ 0 → k < 2 ^ 31 → SameResult δ (before ++ (blankLine k ending ++ after)) before) ∧
    ∀ k, (∀ before ending after : Bytes, EndsLine before → ending ≠ [] →
        (∀ ch ∈ ending, IsEnd ch) →
        SameResult δ (before ++ after) (before ++ (blankLine k ending ++ after))) ↔ k = 0 := by
  refine ⟨fun before ending after hbefore hne hending k h =>
    sameResult_blankLine hbefore hne hending after h, fun before ending after hbefore hne hending k hk
    hspaces => sameResult_cut hbefore hne hending after hk hspaces, fun k => ⟨fun h => ?_, ?_⟩⟩
  · by_contra hk
    exact not_sameResult_dashes hk (h _ _ _ ⟨[45], 10, .inr rfl, rfl⟩ (List.cons_ne_nil 10 []) (by decide))
  · rintro rfl before ending after hbefore hne hending
    exact sameResult_blankLine hbefore hne hending after (.inl rfl)

/-- Three spaces behind the last line. -/
theorem blankLine_last :
    SameResult Unit (bytes "a: 1\n" ++ bytes "\n") (bytes "a: 1\n" ++ (blankLine 3 [13, 10] ++ bytes "\n")) :=
  blankLine_unchanged.1 _ _ _ ⟨bytes "a: 1", 10, .inr rfl, rfl⟩ (by decide) (by decide) 3
    (.inr (.inr ⟨by decide, fun line hline => by cases hline⟩))

/-- One space between two elements of a list. -/
theorem dashes_not_unchanged :
    ¬ ∀ (k : ℕ) (before ending after : Bytes), EndsLine before → ending ≠ [] →
      (∀ ch ∈ ending, IsEnd ch) →
        SameResult Unit (before ++ after) (before ++ (blankLine k ending ++ after)) :=
  fun h => not_sameResult_dashes (δ := Unit) (k := 1) (by decide)
    (h 1 _ _ _ ⟨[45], 10, .inr rfl, rfl⟩ (List.cons_ne_nil 10 []) (by decide))

end Sese.Yaml
