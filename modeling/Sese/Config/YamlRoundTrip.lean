import Sese.Config.YamlLines
import Sese.Config.YamlLayout

/-!
# YAML round trips

What `parse` makes of the lines of a tree, and when it reads back what `streamify` has written.
-/
namespace Sese.Yaml

open Foundation
open Json (Tokens Waiting)

variable {δ : Type} [Strtod δ]

theorem indent_lt (count level : ℕ) (prefixed : Bool) : indent count level prefixed < 2 ^ 31 := by
  rw [indent]
  split_ifs
  · omega
  · decide

variable {spaces : ℕ}

theorem Token.clean {text : Bytes} (h : Token text) (hroom : spaces < 2 ^ 31) :
    Clean (spaces, text) := by
  refine ⟨hroom, h.ne_nil, fun b hb heq => ?_, fun b hb => ⟨fun heq => ?_, fun heq => ?_⟩⟩
  · exact h.octets b (List.mem_of_head? hb) (by rw [heq]; decide)
  · exact h.octets b hb (by rw [heq]; decide)
  · exact h.octets b hb (by rw [heq]; decide)

theorem clean_scalar {value : Value δ} (hplain : Plain value) (hscalar : value.isContainer = false)
    (hroom : spaces < 2 ^ 31) : Clean (spaces, basicText value) := by
  by_cases hnonneg : Nonneg value
  · exact (scalar_text hplain hnonneg hscalar).1.clean hroom
  · cases value with
    | int i =>
      have htext : basicText (.int i : Value δ) = 45 :: toDecimal i.natAbs := by
        change signedDecimal i = _
        rw [signedDecimal, if_pos (not_le.mp hnonneg)]
      have hdigits := (word_toDecimal i.natAbs).token.clean hroom
      rw [htext]
      refine ⟨hroom, List.cons_ne_nil _ _, fun b hb => ?_, fun b hb => ?_⟩
      · obtain rfl := Option.some.inj hb
        decide
      · rcases List.mem_cons.mp hb with rfl | hb
        · decide
        · exact hdigits.ends b hb
    | _ => exact absurd trivial hnonneg

theorem clean_mark {rows : List Row} (h : ∀ row ∈ rows, Clean row) (hroom : spaces < 2 ^ 31) :
    ∀ row ∈ mark spaces rows, Clean row := by
  cases rows with
  | nil => exact h
  | cons first rows =>
    have hfirst := h first List.mem_cons_self
    intro row hrow
    rcases List.mem_cons.mp hrow with rfl | hrow
    · refine ⟨hroom, List.cons_ne_nil _ _, fun b hb => ?_, fun b hb => ?_⟩
      · obtain rfl := Option.some.inj hb
        decide
      · rcases List.mem_cons.mp hb with rfl | hb
        · decide
        · rcases List.mem_cons.mp hb with rfl | hb
          · decide
          · exact hfirst.ends b hb
    · exact h row (List.mem_cons_of_mem _ hrow)

theorem clean_key {key text : Bytes} (hkey : Word key) (htext : ∀ b ∈ text, b ≠ 13 ∧ b ≠ 10)
    (hroom : spaces < 2 ^ 31) : Clean (spaces, key ++ 58 :: 32 :: text) := by
  have hclean := hkey.token.clean hroom
  refine ⟨hroom, by simp, fun b hb => ?_, fun b hb => ?_⟩
  · obtain ⟨c, key, rfl⟩ := List.exists_cons_of_ne_nil hkey.ne_nil
    exact hclean.head b hb
  · rcases List.mem_append.mp hb with hb | hb
    · exact hclean.ends b hb
    · rcases List.mem_cons.mp hb with rfl | hb
      · decide
      · rcases List.mem_cons.mp hb with rfl | hb
        · decide
        · exact htext b hb

theorem clean_elements {values : List (Value δ)}
    (h : ∀ v ∈ values, ∀ level, ∀ row ∈ rows level false v, Clean row) (level count : ℕ)
    (prefixed : Bool) : ∀ row ∈ elementRows level count prefixed values, Clean row := by
  induction values generalizing count prefixed with
  | nil =>
    intro row hrow
    rw [elementRows] at hrow
    cases hrow
  | cons v values ih =>
    intro row hrow
    rw [elementRows] at hrow
    rcases List.mem_append.mp hrow with hrow | hrow
    · exact clean_mark (h v List.mem_cons_self _) (indent_lt _ _ _) row hrow
    · exact ih (fun w hw => h w (List.mem_cons_of_mem _ hw)) _ _ row hrow

theorem clean_members {members : List (Bytes × Value δ)}
    (h : ∀ e ∈ members, Word e.1 ∧ Plain e.2 ∧ ∀ level, ∀ row ∈ rows level true e.2, Clean row)
    (level count : ℕ) (prefixed : Bool) :
    ∀ row ∈ memberRows level count prefixed members, Clean row := by
  induction members generalizing count prefixed with
  | nil =>
    intro row hrow
    rw [memberRows] at hrow
    cases hrow
  | cons e members ih =>
    obtain ⟨key, value⟩ := e
    obtain ⟨hkey, hplain, hvalue⟩ := h (key, value) List.mem_cons_self
    intro row hrow
    rw [memberRows_cons] at hrow
    rcases List.mem_append.mp hrow with hrow | hrow
    · rw [memberRow] at hrow
      by_cases hcontainer : value.isContainer
      · rw [if_pos hcontainer] at hrow
        rcases List.mem_cons.mp hrow with rfl | hrow
        · exact clean_key hkey (fun b hb => by cases hb) (indent_lt _ _ _)
        · exact hvalue _ row hrow
      · rw [if_neg hcontainer] at hrow
        rw [Bool.not_eq_true] at hcontainer
        obtain rfl := List.mem_singleton.mp hrow
        have htext := clean_scalar hplain hcontainer (indent_lt count level prefixed)
        exact clean_key hkey htext.ends (indent_lt _ _ _)
    · exact ih (fun a ha => h a (List.mem_cons_of_mem _ ha)) _ _ row hrow

theorem clean_rows {value : Value δ} (h : value.All Plain) (level : ℕ) (prefixed : Bool) :
    ∀ row ∈ rows level prefixed value, Clean row := by
  induction value using Value.tree_induction generalizing level prefixed with
  | list values ih =>
    rw [rows]
    exact clean_elements (fun v hv level => ih v hv (h.element hv) level false) level 0 prefixed
  | dict members ih =>
    rw [rows]
    exact clean_members (fun e he => ⟨h.self.2.2 e he, (h.member he).self,
      fun level => ih e he (h.member he) level true⟩) level 0 prefixed
  | null =>
    intro row hrow
    rw [rows_scalar rfl] at hrow
    obtain rfl := List.mem_singleton.mp hrow
    exact clean_scalar h.self rfl (by decide)
  | bool b =>
    intro row hrow
    rw [rows_scalar rfl] at hrow
    obtain rfl := List.mem_singleton.mp hrow
    exact clean_scalar h.self rfl (by decide)
  | int i =>
    intro row hrow
    rw [rows_scalar rfl] at hrow
    obtain rfl := List.mem_singleton.mp hrow
    exact clean_scalar h.self rfl (by decide)
  | string s =>
    intro row hrow
    rw [rows_scalar rfl] at hrow
    obtain rfl := List.mem_singleton.mp hrow
    exact clean_scalar h.self rfl (by decide)
  | double d => exact h.self.elim
  | blob s => exact h.self.elim

omit [Strtod δ] in
theorem Opens.heads {tokens : Tokens} {value : Value δ} (h : Opens tokens value)
    (hcontainer : value.isContainer) : Heads tokens value := by
  cases value with
  | list values =>
    obtain ⟨second, others, rfl, -⟩ := h
    exact ⟨_, rfl⟩
  | dict members =>
    obtain ⟨key, others, rfl, -, hkey⟩ := h
    refine ⟨key, _, rfl, ?_⟩
    rintro rfl
    exact absurd (hkey.octets 45 List.mem_cons_self) (by decide)
  | _ => cases hcontainer

omit [Strtod δ] in
theorem Opens.headsInline {tokens : Tokens} {value : Value δ} (h : Opens tokens value)
    (hcontainer : value.isContainer) : HeadsInline tokens value := by
  cases value with
  | list values => exact h
  | dict members =>
    obtain ⟨key, others, htokens, hle, -⟩ := h
    exact ⟨key, others, htokens, hle⟩
  | _ => cases hcontainer

theorem elementsLay {values : List (Value δ)} {level : ℕ}
    (h : ∀ v ∈ values, v.All Plain ∧ v.All Nonneg ∧
      (v.isContainer → Lays (2 * (level + 1)) v (lines (level + 1) v)))
    (haligned : ElementsAligned level values) :
    ElementsLay (2 * level) values (elementLines level values) := by
  induction values with
  | nil => exact .nil
  | cons v values ih =>
    obtain ⟨⟨hplain, hnonneg, hlays⟩, hvalues⟩ := List.forall_mem_cons.mp h
    obtain ⟨hroom, -, haligned⟩ := haligned
    have hothers := ih hvalues haligned
    rw [elementLines]
    by_cases hcontainer : v.isContainer
    · obtain ⟨tokens, others, hlines, hopens⟩ := lines_cons hplain hnonneg (level + 1)
      have hinside := hlays hcontainer
      rw [hlines] at hinside ⊢
      exact .container (hroom hcontainer) (hopens.headsInline hcontainer) hinside hothers
    · rw [Bool.not_eq_true] at hcontainer
      obtain ⟨hlines, -⟩ := lines_word hplain.self hnonneg.self hcontainer (level + 1)
      have hword := hothers.word (basicText v)
      rw [(scalar_text hplain.self hnonneg.self hcontainer).2] at hword
      rw [hlines]
      exact hword

theorem membersLay {members : List (Bytes × Value δ)} {level : ℕ}
    (h : ∀ e ∈ members, e.2.All Plain ∧ e.2.All Nonneg ∧
      (e.2.isContainer → Lays (2 * (level + 1)) e.2 (lines (level + 1) e.2))) :
    MembersLay (2 * level) members (memberLines level members) := by
  induction members with
  | nil => exact .nil
  | cons e members ih =>
    obtain ⟨key, value⟩ := e
    obtain ⟨⟨hplain, hnonneg, hlays⟩, hmembers⟩ := List.forall_mem_cons.mp h
    have hothers := ih hmembers
    rw [memberLines_cons, memberLine]
    by_cases hcontainer : value.isContainer
    · obtain ⟨tokens, others, hlines, hopens⟩ := lines_cons hplain hnonneg (level + 1)
      have hinside := hlays hcontainer
      rw [if_pos hcontainer]
      rw [hlines] at hinside ⊢
      exact .container key (by omega) (hopens.heads hcontainer) hinside hothers
    · rw [Bool.not_eq_true] at hcontainer
      obtain ⟨htoken, hbasic⟩ := scalar_text hplain.self hnonneg.self hcontainer
      have hpair := hothers.word key (basicText value)
      rw [hbasic] at hpair
      rw [hcontainer, htoken.tokenizer_eq]
      exact hpair

theorem lays_lines {value : Value δ} (hplain : value.All Plain) (hnonneg : value.All Nonneg)
    (hcontainer : value.isContainer) {level : ℕ} {prefixed : Bool}
    (haligned : Aligned level prefixed value) : Lays (2 * level) value (lines level value) := by
  induction value using Value.tree_induction generalizing level prefixed with
  | list values ih =>
    refine .list hplain.self (elementsLay (fun v hv => ?_) haligned.2)
    refine ⟨hplain.element hv, hnonneg.element hv, fun hv' => ?_⟩
    exact ih v hv (hplain.element hv) (hnonneg.element hv) hv' (haligned.2.element hv)
  | dict members ih =>
    refine .dict hplain.self.1 (membersLay fun e he => ?_)
    refine ⟨hplain.member he, hnonneg.member he, fun he' => ?_⟩
    exact ih e he (hplain.member he) (hnonneg.member he) he' (haligned.2.2.member he)
  | null => cases hcontainer
  | bool _ => cases hcontainer
  | int _ => cases hcontainer
  | double _ => cases hcontainer
  | string _ => cases hcontainer
  | blob _ => cases hcontainer

omit [Strtod δ] in
theorem Plain.sortedKeys {value : Value δ} (h : Plain value) : value.SortedKeys := by
  cases value with
  | dict members => exact h.2.1
  | _ => trivial

/-- `streamify` writes the tree and returns `true`, and `parse` makes the same tree of the text. -/
def RoundTrips (value : Value δ) : Prop :=
  ∃ fuel text, streamify fuel value = .ok (true, text) ∧ ∃ fuel, parse fuel text = .ok value

theorem nested_delivers {m : ℕ} {value : Value δ} {r : Bool × Bytes} (h : streamify m value = .ok r) :
    Delivers (flatten streamTurn) ⟨⟨value, 0, 0, true⟩, [], iterOf value, []⟩ r :=
  (nested_iff_flatten Fault.endlessLoop).mp ⟨m, h⟩

theorem streamify_unique {m n : ℕ} {value : Value δ} {r r' : Bool × Bytes}
    (h : streamify m value = .ok r) (h' : streamify n value = .ok r') : r = r' :=
  (nested_delivers h).unique (nested_delivers h')

/-- What the text of a tree that makes the round trip is read as. -/
theorem RoundTrips.parse_eq {value w : Value δ} (h : RoundTrips value) {m n : ℕ} {text : Bytes}
    (hstreamify : streamify m value = .ok (true, text)) (hparse : parse n text = .ok w) : w = value := by
  obtain ⟨fuel, text', htext, k, hk⟩ := h
  obtain rfl : text' = text := (Prod.mk.inj (streamify_unique htext hstreamify)).2
  exact parse_unique hparse hk

/-- A tree makes the round trip when it has no numbers below zero, its lists are shorter than the
counter of the writer allows, and its rows are aligned. -/
theorem roundTrips_of_aligned {value : Value δ} (hplain : value.All Plain)
    (hcontainer : value.isContainer) (hnonneg : value.All Nonneg) (hcounted : value.All Counted)
    (haligned : Aligned 0 true value) : RoundTrips value := by
  obtain ⟨fuel, hstreamify⟩ := streamify_eq_rows hplain hcounted hcontainer
  obtain ⟨hqueue, hindented⟩ := queueOf_unlines (clean_rows hplain 0 true)
  have hlines := (lined hplain hcounted).prefixed hplain hcontainer haligned
  obtain ⟨tokens, others, hfirst, hopens⟩ := lines_cons hplain hnonneg 0
  have hlays := lays_lines hplain hnonneg hcontainer haligned
  rw [hlines, hfirst] at hqueue
  rw [hfirst] at hlays
  have hpresents : Presents (unlines (rows 0 true value)) value :=
    ⟨hindented, _, tokens, others, hqueue, hopens.heads hcontainer, hlays⟩
  have hsorted : value.All Value.SortedKeys := fun w hw => (hplain w hw).sortedKeys
  exact ⟨fuel, _, hstreamify, hpresents.parse_eq (Value.fill_sorted hsorted)⟩

/-- `- a: ~` and `  b: ` with a list of 1 and true -/
def sampleTree : Value Unit :=
  .list [.dict [(bytes "a", .null), (bytes "b", .list [.int 1, .bool true])]]

theorem all_sampleTree {P : Value Unit → Prop} (hroot : P sampleTree)
    (hdict : P (.dict [(bytes "a", .null), (bytes "b", .list [.int 1, .bool true])])) (hnull : P .null)
    (hlist : P (.list [.int 1, .bool true])) (hint : P (.int 1)) (hbool : P (.bool true)) :
    sampleTree.All P := by
  apply Value.all_list hroot
  intro v hv
  obtain rfl := List.mem_singleton.mp hv
  apply Value.all_dict hdict
  intro e he
  rcases List.mem_cons.mp he with rfl | he
  · exact Value.all_word rfl hnull
  · obtain rfl := List.mem_singleton.mp he
    apply Value.all_list hlist
    intro v hv
    rcases List.mem_cons.mp hv with rfl | hv
    · exact Value.all_word rfl hint
    · obtain rfl := List.mem_singleton.mp hv
      exact Value.all_word rfl hbool

theorem sampleTree_plain : sampleTree.All Plain := by
  have hword (b : UInt8) (h : isalnum b) : Word [b] :=
    ⟨List.cons_ne_nil b [], fun c hc => by rwa [List.mem_singleton.mp hc]⟩
  have hdict : Plain (.dict [(bytes "a", .null), (bytes "b", .list [.int 1, .bool true])] : Value Unit) := by
    refine ⟨List.cons_ne_nil _ _, ?_, fun e he => ?_⟩
    · exact List.pairwise_cons.mpr ⟨fun e he => by rw [List.mem_singleton.mp he]; decide,
        List.pairwise_singleton _ _⟩
    · rcases List.mem_cons.mp he with rfl | he
      · exact hword 97 (by decide)
      · obtain rfl := List.mem_singleton.mp he
        exact hword 98 (by decide)
  exact all_sampleTree (List.cons_ne_nil _ _) hdict trivial (List.cons_ne_nil _ _)
    ⟨by decide, by decide⟩ trivial

theorem roundTrips_sampleTree : RoundTrips sampleTree := by
  apply roundTrips_of_aligned sampleTree_plain rfl
  · exact all_sampleTree trivial trivial trivial trivial (by decide : (0 : ℤ) ≤ 1) trivial
  · exact all_sampleTree (by decide : 1 < 2 ^ 32) trivial trivial (by decide : 2 < 2 ^ 32) trivial trivial
  · simp [sampleTree, Aligned, ElementsAligned, MembersAligned]

/-- The minus sign of a number is read as the mark of a list. -/
theorem not_roundTrips_negative : ¬ RoundTrips (.list [.int (-1)] : Value Unit) := by
  intro h
  have hstreamify : streamify 9 (.list [.int (-1)] : Value Unit) = .ok (true, bytes "- -1\n") := by
    rfl
  have hparse : parse 9 (bytes "- -1\n") = .ok (.list [.list [.int 1]] : Value Unit) := by
    rfl
  have heq := h.parse_eq hstreamify hparse
  cases heq

end Sese.Yaml
