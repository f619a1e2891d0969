import Sese.Foundation.Escapes
import Sese.Text.Format

/-!
# What a call of `parsing` comes to

Every pass goes on to the next brace. One that has a backslash in front of it is passed; of the
others it depends on whether the scan is in a placeholder what happens, and one that is not looked
for keeps the loop where it is.
-/
namespace Sese.Text

open Foundation

/-- The braces of a text that have no backslash in front of them. -/
def braces (text : Bytes) : Bytes := marks 92 isKeyWord false text

variable {front run rest builder args : Bytes} {pos : ℕ} {inArgs : Bool} {ch : UInt8}
  {argsBuilder : Option Bytes}

theorem findKeyWord_run (hrun : ∀ x ∈ run, isKeyWord x = false) (hch : isKeyWord ch = true) :
    findKeyWord (front ++ (run ++ ch :: rest)) front.length = (front ++ run).length := by
  have hfind : (run ++ ch :: rest).findIdx isKeyWord = run.length := by
    rw [List.findIdx_append, List.findIdx_eq_length.mpr hrun, if_neg (lt_irrefl _), List.findIdx_cons,
      hch]
    simp
  rw [findKeyWord, List.drop_left, hfind, List.length_append]

theorem findKeyWord_none (hrun : ∀ x ∈ run, isKeyWord x = false) :
    findKeyWord (front ++ run) front.length = (front ++ run).length := by
  rw [findKeyWord, List.drop_left, List.findIdx_eq_length.mpr hrun, List.length_append]

theorem getElem?_brace :
    (front ++ (run ++ ch :: rest))[(front ++ run).length]? = some ch := by
  rw [← List.append_assoc, List.getElem?_append_right le_rfl, Nat.sub_self, List.getElem?_cons_zero]

/-- Nothing in front of a run is a backslash that could be meant. -/
theorem isEscaped_iff (hfront : front.getLast? ≠ some 92) :
    isEscaped (front ++ (run ++ ch :: rest)) (front ++ run).length = true ↔
      run.getLast? = some 92 := by
  have hread : ∀ x : Bytes, x ≠ [] → (x ++ ch :: rest)[x.length - 1]? = x.getLast? := by
    intro x hx
    have hpos := List.length_pos_iff.mpr hx
    rw [List.getElem?_append_left (by omega), List.getLast?_eq_getElem?]
  rw [isEscaped, decide_eq_true_eq, ← List.append_assoc]
  by_cases hempty : front ++ run = []
  · obtain ⟨rfl, rfl⟩ := List.append_eq_nil_iff.mp hempty
    simp
  · rw [hread _ hempty, List.getLast?_append]
    have hlen : (front ++ run).length ≠ 0 := by simpa using hempty
    cases hlast : run.getLast? with
    | none => simp only [hlen, Option.none_or, hfront, ne_eq, not_false_eq_true, and_false, reduceCtorEq]
    | some x => simp only [hlen, Option.some_or, ne_eq, not_false_eq_true, true_and]

theorem literal_run (hlast : run.getLast? = some 92) :
    literal (front ++ (run ++ ch :: rest)) front.length (front ++ run).length = .ok run.dropLast := by
  have hrun : run = run.dropLast ++ [92] := (List.dropLast_append_getLast? 92 hlast).symm
  have hlen : (front ++ run).length = front.length + (run.dropLast.length + 1) := by
    conv_lhs => rw [hrun]
    simp
  have hpattern : front ++ (run ++ ch :: rest) = front ++ (run.dropLast ++ (92 :: ch :: rest)) := by
    conv_lhs => rw [hrun]
    simp
  rw [literal, if_pos (by omega), hpattern, load_append rfl (by omega)]
  rfl

theorem round_leave {s : Scan} (h : s.pos1 = s.ctx.pattern.length) :
    parsingRound s = .ok (.inr (none, s)) := if_pos h

variable {pattern : Bytes}

theorem round_missing (hpattern : pattern = front ++ run) (hne : run ≠ [])
    (hrun : ∀ x ∈ run, isKeyWord x = false) :
    parsingRound ⟨⟨builder, pattern, pos⟩, args, true, argsBuilder, front.length⟩ =
      .ok (.inr (some false, ⟨⟨builder, pattern, pos⟩, args, true, argsBuilder, front.length⟩)) := by
  subst hpattern
  have hlen : front.length ≠ (front ++ run).length := by simpa using hne
  have hend : (front ++ run)[(front ++ run).length]? = none := List.getElem?_eq_none le_rfl
  simp only [parsingRound, hlen, if_false, findKeyWord_none hrun, hend, if_true]

theorem round_end (hpattern : pattern = front ++ run) (hne : run ≠ [])
    (hrun : ∀ x ∈ run, isKeyWord x = false) :
    parsingRound ⟨⟨builder, pattern, pos⟩, args, false, argsBuilder, front.length⟩ =
      .ok (.inr (some true,
        ⟨⟨builder ++ run, pattern, pattern.length⟩, args, false, argsBuilder, front.length⟩)) := by
  subst hpattern
  have hlen : front.length ≠ (front ++ run).length := by simpa using hne
  have hend : (front ++ run)[(front ++ run).length]? = none := List.getElem?_eq_none le_rfl
  simp only [parsingRound, hlen, if_false, findKeyWord_none hrun, hend, FmtCtx.append, List.drop_left,
    Bool.false_eq_true]

theorem length_ne (hpattern : pattern = front ++ (run ++ ch :: rest)) :
    front.length ≠ pattern.length := by
  rw [hpattern]
  simp only [List.length_append, List.length_cons]
  omega

theorem length_front (front run : Bytes) (ch : UInt8) :
    (front ++ run).length + 1 = (front ++ run ++ [ch]).length := by
  simp only [List.length_append, List.length_singleton]

section
variable (hpattern : pattern = front ++ (run ++ ch :: rest)) (hrun : ∀ x ∈ run, isKeyWord x = false)
  (hch : isKeyWord ch = true) (hfront : front.getLast? ≠ some 92)
include hpattern hrun hch hfront

theorem round_escape_inside (hlast : run.getLast? = some 92) :
    parsingRound ⟨⟨builder, pattern, pos⟩, args, true, argsBuilder, front.length⟩ =
      .ok (.inl ⟨⟨builder, pattern, pos⟩, args, true,
        some (argsBuilder.getD [] ++ run.dropLast ++ [ch]), (front ++ run ++ [ch]).length⟩) := by
  have hlen := length_ne hpattern
  subst hpattern
  simp only [parsingRound, hlen, if_false, findKeyWord_run hrun hch, getElem?_brace, if_true,
    (isEscaped_iff hfront).mpr hlast, literal_run hlast, ok_bind, length_front front run ch]
  rfl

theorem round_escape_outside (hlast : run.getLast? = some 92) :
    parsingRound ⟨⟨builder, pattern, pos⟩, args, false, argsBuilder, front.length⟩ =
      .ok (.inl ⟨⟨builder ++ (run.dropLast ++ [ch]), pattern, pos⟩, args, false, argsBuilder,
        (front ++ run ++ [ch]).length⟩) := by
  have hlen := length_ne hpattern
  subst hpattern
  simp only [parsingRound, hlen, if_false, findKeyWord_run hrun hch, getElem?_brace, if_true,
    (isEscaped_iff hfront).mpr hlast, literal_run hlast, ok_bind, length_front front run ch,
    Bool.false_eq_true, FmtCtx.append]
  rfl

theorem round_stay (hlast : run.getLast? ≠ some 92) (hwrong : ch ≠ if inArgs then 125 else 123) :
    parsingRound ⟨⟨builder, pattern, pos⟩, args, inArgs, argsBuilder, front.length⟩ =
      .ok (.inl ⟨⟨builder, pattern, pos⟩, args, inArgs, argsBuilder, front.length⟩) := by
  have hlen := length_ne hpattern
  subst hpattern
  have hnot : ¬ isEscaped (front ++ (run ++ ch :: rest)) (front ++ run).length = true := fun h =>
    hlast ((isEscaped_iff hfront).mp h)
  cases inArgs with
  | true =>
    have hwrong : ch ≠ 125 := hwrong
    simp only [parsingRound, hlen, if_false, findKeyWord_run hrun hch, getElem?_brace, if_true, hnot,
      hwrong, Bool.false_eq_true]
  | false =>
    have hwrong : ch ≠ 123 := hwrong
    simp only [parsingRound, hlen, if_false, findKeyWord_run hrun hch, getElem?_brace, hnot, hwrong,
      Bool.false_eq_true]

end

section
variable (hrun : ∀ x ∈ run, isKeyWord x = false) (hfront : front.getLast? ≠ some 92)
  (hlast : run.getLast? ≠ some 92)
include hrun hfront hlast

theorem round_close (hpattern : pattern = front ++ (run ++ 125 :: rest)) :
    parsingRound ⟨⟨builder, pattern, pos⟩, args, true, argsBuilder, front.length⟩ =
      .ok (.inr (none, ⟨⟨builder, pattern, (front ++ run ++ [125]).length⟩, argsBuilder.getD run,
        false, argsBuilder, front.length⟩)) := by
  have hlen := length_ne hpattern
  subst hpattern
  have hnot : ¬ isEscaped (front ++ (run ++ 125 :: rest)) (front ++ run).length = true := fun h =>
    hlast ((isEscaped_iff hfront).mp h)
  have hwindow : window (front ++ (run ++ 125 :: rest)) front.length
      ((front ++ run).length - front.length) = run :=
    window_append rfl (by rw [List.length_append, Nat.add_sub_cancel_left])
  simp only [parsingRound, hlen, if_false, findKeyWord_run hrun (by rfl : isKeyWord 125 = true),
    getElem?_brace, if_true, hnot, hwindow, length_front front run 125, Bool.false_eq_true]

theorem round_open (hpattern : pattern = front ++ (run ++ 123 :: rest)) :
    parsingRound ⟨⟨builder, pattern, pos⟩, args, false, argsBuilder, front.length⟩ =
      .ok (.inl ⟨⟨builder ++ run, pattern, pos⟩, args, true, argsBuilder,
        (front ++ run ++ [123]).length⟩) := by
  have hlen := length_ne hpattern
  subst hpattern
  have hnot : ¬ isEscaped (front ++ (run ++ 123 :: rest)) (front ++ run).length = true := fun h =>
    hlast ((isEscaped_iff hfront).mp h)
  have hwindow : window (front ++ (run ++ 123 :: rest)) front.length
      ((front ++ run).length - front.length) = run :=
    window_append rfl (by rw [List.length_append, Nat.add_sub_cancel_left])
  simp only [parsingRound, hlen, if_false, findKeyWord_run hrun (by rfl : isKeyWord 123 = true),
    getElem?_brace, hnot, hwindow, length_front front run 123, Bool.false_eq_true, FmtCtx.append, if_true]

end

/-- A text is one without braces, or goes on behind its first brace, which has a backslash in front
of it or has none. -/
theorem braces_induction {P : Bytes → Prop}
    (plain : ∀ run, (∀ x ∈ run, isKeyWord x = false) → braces run = [] → P run)
    (escaped : ∀ run ch rest, (∀ x ∈ run, isKeyWord x = false) → isKeyWord ch = true →
      run.getLast? = some 92 → braces (run ++ ch :: rest) = braces rest → P rest →
      P (run ++ ch :: rest))
    (mark : ∀ run ch rest, (∀ x ∈ run, isKeyWord x = false) → isKeyWord ch = true →
      run.getLast? ≠ some 92 → braces (run ++ ch :: rest) = ch :: braces rest →
      P (run ++ ch :: rest)) (text : Bytes) : P text :=
  marks_induction rfl plain escaped mark text

theorem getLast?_brace (front run : Bytes) (hch : isKeyWord ch = true) :
    (front ++ run ++ [ch]).getLast? ≠ some 92 := by
  rw [List.getLast?_concat]
  rintro ⟨⟩
  cases hch

theorem pattern_behind (hpattern : pattern = front ++ (run ++ ch :: rest)) :
    pattern = front ++ run ++ [ch] ++ rest := by
  rw [hpattern]
  simp

theorem outside_end {fuel : ℕ} (hpattern : pattern = front ++ rest)
    (hfront : front.getLast? ≠ some 92) (hbraces : braces rest = []) (hfuel : rest.length < fuel) :
    ∃ status s, iterate (.fault .endlessLoop) parsingRound fuel
        ⟨⟨builder, pattern, pos⟩, args, false, argsBuilder, front.length⟩ = .ok (status, s) ∧
      status.getD true = true ∧ s.inArgs = false ∧ s.args = args := by
  obtain ⟨fuel, rfl⟩ : ∃ k, fuel = k + 1 := ⟨fuel - 1, by omega⟩
  induction rest using braces_induction generalizing front builder fuel with
  | plain run hrun =>
    by_cases hempty : run = []
    · subst hempty
      rw [List.append_nil] at hpattern
      exact ⟨none, _, iterate_done (round_leave (congrArg List.length hpattern.symm)) fuel, rfl, rfl,
        rfl⟩
    · exact ⟨some true, _, iterate_done (round_end hpattern hempty hrun) fuel, rfl, rfl, rfl⟩
  | escaped run ch rest hrun hch hlast hsame ih =>
    rw [hsame] at hbraces
    rw [iterate_more (round_escape_outside hpattern hrun hch hfront hlast)]
    simp only [List.length_append, List.length_cons] at hfuel
    obtain ⟨fuel, rfl⟩ : ∃ k, fuel = k + 1 := ⟨fuel - 1, by omega⟩
    exact ih (pattern_behind hpattern) (getLast?_brace front run hch) hbraces fuel (by omega)
  | mark run ch rest hrun hch hlast hmark =>
    rw [hmark] at hbraces
    cases hbraces

theorem outside_open {bs : List UInt8} (hpattern : pattern = front ++ rest)
    (hfront : front.getLast? ≠ some 92) (hbraces : braces rest = 123 :: bs) :
    ∃ builder' front' rest' k, pattern = front' ++ rest' ∧ front'.getLast? ≠ some 92 ∧
      braces rest' = bs ∧ rest'.length + k ≤ rest.length ∧
      ∀ fuel, iterate (.fault .endlessLoop) parsingRound (fuel + k)
          ⟨⟨builder, pattern, pos⟩, args, false, argsBuilder, front.length⟩ =
        iterate (.fault .endlessLoop) parsingRound fuel
          ⟨⟨builder', pattern, pos⟩, args, true, argsBuilder, front'.length⟩ := by
  induction rest using braces_induction generalizing front builder with
  | plain run hrun hnone =>
    rw [hnone] at hbraces
    cases hbraces
  | escaped run ch rest hrun hch hlast hsame ih =>
    rw [hsame] at hbraces
    obtain ⟨builder', front', rest', k, hpattern', hfront', hbraces', hlen, hmoves⟩ :=
      @ih _ (builder ++ (run.dropLast ++ [ch])) (pattern_behind hpattern)
        (getLast?_brace front run hch) hbraces
    refine ⟨builder', front', rest', k + 1, hpattern', hfront', hbraces', ?_, ?_⟩
    · simp only [List.length_append, List.length_cons]
      omega
    · intro fuel
      rw [← Nat.add_assoc, iterate_more (round_escape_outside hpattern hrun hch hfront hlast), hmoves]
  | mark run ch rest hrun hch hlast hmark =>
    rw [hmark] at hbraces
    obtain ⟨rfl, rfl⟩ := List.cons.inj hbraces
    refine ⟨builder ++ run, front ++ run ++ [123], rest, 1, pattern_behind hpattern,
      getLast?_brace front run hch, rfl, ?_, ?_⟩
    · simp only [List.length_append, List.length_cons]
      omega
    · exact fun fuel => iterate_more (round_open hrun hfront hlast hpattern) fuel

theorem inside_missing {fuel : ℕ} (hpattern : pattern = front ++ rest)
    (hfront : front.getLast? ≠ some 92) (hbraces : braces rest = []) (hfuel : rest.length < fuel) :
    ∃ status s, iterate (.fault .endlessLoop) parsingRound fuel
        ⟨⟨builder, pattern, pos⟩, args, true, argsBuilder, front.length⟩ = .ok (status, s) ∧
      s.ctx = ⟨builder, pattern, pos⟩ ∧ s.args = args ∧
      (status = some false ∨ status = none ∧ s.inArgs = true) := by
  obtain ⟨fuel, rfl⟩ : ∃ k, fuel = k + 1 := ⟨fuel - 1, by omega⟩
  induction rest using braces_induction generalizing front argsBuilder fuel with
  | plain run hrun =>
    by_cases hempty : run = []
    · subst hempty
      rw [List.append_nil] at hpattern
      exact ⟨none, _, iterate_done (round_leave (congrArg List.length hpattern.symm)) fuel, rfl, rfl,
        Or.inr ⟨rfl, rfl⟩⟩
    · exact ⟨some false, _, iterate_done (round_missing hpattern hempty hrun) fuel, rfl, rfl,
        Or.inl rfl⟩
  | escaped run ch rest hrun hch hlast hsame ih =>
    rw [hsame] at hbraces
    rw [iterate_more (round_escape_inside hpattern hrun hch hfront hlast)]
    simp only [List.length_append, List.length_cons] at hfuel
    obtain ⟨fuel, rfl⟩ : ∃ k, fuel = k + 1 := ⟨fuel - 1, by omega⟩
    exact ih (pattern_behind hpattern) (getLast?_brace front run hch) hbraces fuel (by omega)
  | mark run ch rest hrun hch hlast hmark =>
    rw [hmark] at hbraces
    cases hbraces

theorem inside_close {bs : List UInt8} {fuel : ℕ} (hpattern : pattern = front ++ rest)
    (hfront : front.getLast? ≠ some 92) (hbraces : braces rest = 125 :: bs)
    (hfuel : rest.length < fuel) :
    ∃ s front' rest', iterate (.fault .endlessLoop) parsingRound fuel
        ⟨⟨builder, pattern, pos⟩, args, true, argsBuilder, front.length⟩ = .ok (none, s) ∧
      s.ctx = ⟨builder, pattern, front'.length⟩ ∧ s.inArgs = false ∧
      pattern = front' ++ rest' ∧ front'.getLast? ≠ some 92 ∧ braces rest' = bs := by
  obtain ⟨fuel, rfl⟩ : ∃ k, fuel = k + 1 := ⟨fuel - 1, by omega⟩
  induction rest using braces_induction generalizing front argsBuilder fuel with
  | plain run hrun hnone =>
    rw [hnone] at hbraces
    cases hbraces
  | escaped run ch rest hrun hch hlast hsame ih =>
    rw [hsame] at hbraces
    rw [iterate_more (round_escape_inside hpattern hrun hch hfront hlast)]
    simp only [List.length_append, List.length_cons] at hfuel
    obtain ⟨fuel, rfl⟩ : ∃ k, fuel = k + 1 := ⟨fuel - 1, by omega⟩
    exact ih (pattern_behind hpattern) (getLast?_brace front run hch) hbraces fuel (by omega)
  | mark run ch rest hrun hch hlast hmark =>
    rw [hmark] at hbraces
    obtain ⟨rfl, rfl⟩ := List.cons.inj hbraces
    exact ⟨_, front ++ run ++ [125], rest,
      iterate_done (round_close hrun hfront hlast hpattern) fuel, rfl, rfl, pattern_behind hpattern,
      getLast?_brace front run hch, rfl⟩

/-- The next brace is not the one that is looked for: the loop goes on for ever. -/
theorem scan_stuck {bs : List UInt8} (hpattern : pattern = front ++ rest)
    (hfront : front.getLast? ≠ some 92) (hbraces : braces rest = ch :: bs)
    (hwrong : ch ≠ if inArgs then 125 else 123) (fuel : ℕ) :
    iterate (.fault .endlessLoop) parsingRound fuel
        ⟨⟨builder, pattern, pos⟩, args, inArgs, argsBuilder, front.length⟩ =
      .error (.fault .endlessLoop) := by
  induction rest using braces_induction generalizing front builder argsBuilder fuel with
  | plain run hrun hnone =>
    rw [hnone] at hbraces
    cases hbraces
  | escaped run ch' rest hrun hch hlast hsame ih =>
    rw [hsame] at hbraces
    cases fuel with
    | zero => rfl
    | succ fuel =>
      have hnext := pattern_behind hpattern
      have hend := getLast?_brace front run hch
      cases inArgs with
      | true =>
        rw [iterate_more (round_escape_inside hpattern hrun hch hfront hlast)]
        exact ih hnext hend hbraces fuel
      | false =>
        rw [iterate_more (round_escape_outside hpattern hrun hch hfront hlast)]
        exact ih hnext hend hbraces fuel
  | mark run ch' rest hrun hch hlast hmark =>
    rw [hmark] at hbraces
    obtain ⟨rfl, rfl⟩ := List.cons.inj hbraces
    exact iterate_of_stay (round_stay hpattern hrun hch hfront hlast hwrong) fuel

theorem countLoop_eq (text rest : Bytes) (h : (0 : UInt8) ∉ text) (prev : UInt8) (count : ℕ) :
    countLoop prev count (text ++ 0 :: rest) =
      .ok (count + (marks 92 isKeyWord (prev = 92) text).count 123) := by
  induction text generalizing prev count with
  | nil => simp [countLoop, marks]
  | cons ch text ih =>
    have hch : ch ≠ 0 := fun hzero => h (by simp [hzero])
    have hnext := ih (fun hmem => h (by simp [hmem]))
    rw [List.cons_append, countLoop, if_neg hch, hnext, marks]
    by_cases hopen : ch = 123
    · subst hopen
      by_cases hprev : prev = 92
      · simp [hprev]
      · simp [hprev, isKeyWord]
        omega
    · rw [if_neg (by simp [hopen])]
      split_ifs with hmark
      · rw [List.count_cons_of_ne hopen]
      · rfl

theorem formatParameterCounter_eq {text : Bytes} (hne : text ≠ []) (h : (0 : UInt8) ∉ text)
    (rest : Bytes) :
    formatParameterCounter (text ++ 0 :: rest) = .ok ((braces text).count 123) := by
  cases text with
  | nil => exact absurd rfl hne
  | cons ch text =>
    have hch : ch ≠ 0 := fun hzero => h (by simp [hzero])
    have hfirst : formatParameterCounter (ch :: text ++ 0 :: rest) =
        countLoop 0 0 (ch :: text ++ 0 :: rest) := by
      rw [List.cons_append, formatParameterCounter, countLoop, if_neg hch]
      simp
    rw [hfirst, countLoop_eq _ rest h, Nat.zero_add]
    rfl

/-- The context is at a place with no backslash in front, and with these braces behind. -/
def At (ctx : FmtCtx) (bs : List UInt8) : Prop :=
  ∃ front rest, ctx.pattern = front ++ rest ∧ ctx.pos = front.length ∧
    front.getLast? ≠ some 92 ∧ braces rest = bs

variable {ctx : FmtCtx} {bs : List UInt8} {asserts : Bool} {m n fuel : ℕ}

theorem At.of_eq {ctx' : FmtCtx} (h : At ctx bs) (hpattern : ctx'.pattern = ctx.pattern)
    (hpos : ctx'.pos = ctx.pos) : At ctx' bs := by
  unfold At
  rw [hpattern, hpos]
  exact h

theorem At.exists_parts (h : At ctx bs) :
    ∃ builder front rest, ctx = ⟨builder, front ++ rest, front.length⟩ ∧
      front.getLast? ≠ some 92 ∧ braces rest = bs ∧ rest.length ≤ ctx.pattern.length := by
  obtain ⟨builder, pattern, pos⟩ := ctx
  obtain ⟨front, rest, hpattern, hpos, hfront, hbraces⟩ := h
  dsimp only at hpattern hpos
  subst hpattern hpos
  refine ⟨builder, front, rest, rfl, hfront, hbraces, ?_⟩
  rw [List.length_append]
  omega

theorem At.mem (h : At ctx bs) (hch : ch ∈ bs) : ch = 123 ∨ ch = 125 := by
  obtain ⟨front, rest, -, -, -, rfl⟩ := h
  simpa [isKeyWord] using special_of_mem_marks hch

theorem parsing_of_ne (h : parsing asserts m ctx args ≠ .error (.fault .endlessLoop)) (hle : m ≤ n) :
    parsing asserts n ctx args = parsing asserts m ctx args := by
  rw [parsing, parsing, iterate_of_ne ?_ hle]
  intro hstop
  apply h
  rw [parsing, hstop]
  rfl

theorem parsing_of_iterate {status : Option Bool} {s : Scan}
    (h : iterate (.fault .endlessLoop) parsingRound fuel ⟨ctx, args, false, none, ctx.pos⟩ =
      .ok (status, s)) (hout : s.inArgs = false) (asserts : Bool) :
    parsing asserts fuel ctx args = .ok (status.getD true, s.args, s.ctx) := by
  rw [parsing, h, ok_bind]
  cases status with
  | none =>
    dsimp only
    rw [if_neg (by simp [hout])]
    rfl
  | some status => rfl

theorem parsing_end (h : At ctx []) (hfuel : ctx.pattern.length < fuel) (asserts : Bool)
    (args : Bytes) : ∃ ctx', parsing asserts fuel ctx args = .ok (true, args, ctx') := by
  obtain ⟨builder, front, rest, rfl, hfront, hbraces, hlen⟩ := h.exists_parts
  obtain ⟨status, s, hiterate, hstatus, hout, hargs⟩ :=
    outside_end rfl hfront hbraces (hlen.trans_lt hfuel)
  refine ⟨s.ctx, ?_⟩
  rw [parsing_of_iterate hiterate hout, hstatus, hargs]

theorem parsing_next (h : At ctx (123 :: 125 :: bs)) (hfuel : ctx.pattern.length < fuel)
    (asserts : Bool) (args : Bytes) :
    ∃ args' ctx', parsing asserts fuel ctx args = .ok (true, args', ctx') ∧
      ctx'.pattern = ctx.pattern ∧ At ctx' bs := by
  obtain ⟨builder, front, rest, rfl, hfront, hbraces, hlen⟩ := h.exists_parts
  obtain ⟨builder', front₁, rest₁, k, hpattern₁, hfront₁, hbraces₁, hk, hmoves⟩ :=
    outside_open rfl hfront hbraces
  obtain ⟨fuel, rfl⟩ : ∃ i, fuel = i + k := ⟨fuel - k, by omega⟩
  obtain ⟨s, front', rest', hclose, hctx, hout, hpattern', hfront', hbraces'⟩ :=
    inside_close hpattern₁ hfront₁ hbraces₁ (by omega : rest₁.length < fuel)
  refine ⟨s.args, s.ctx, ?_, by rw [hctx], front', rest', ?_, ?_, hfront', hbraces'⟩
  · rw [← hmoves] at hclose
    exact parsing_of_iterate hclose hout asserts
  · rw [hctx]
    exact hpattern'
  · rw [hctx]

theorem parsing_next_or (h : At ctx (123 :: 125 :: bs)) (asserts : Bool) (fuel : ℕ) (args : Bytes) :
    parsing asserts fuel ctx args = .error (.fault .endlessLoop) ∨
      ∃ args' ctx', parsing asserts fuel ctx args = .ok (true, args', ctx') ∧
        ctx'.pattern = ctx.pattern ∧ At ctx' bs := by
  by_cases hstop : parsing asserts fuel ctx args = .error (.fault .endlessLoop)
  · exact Or.inl hstop
  · right
    rw [← parsing_of_ne hstop (by omega : fuel ≤ fuel + ctx.pattern.length + 1)]
    exact parsing_next h (by omega) asserts args

theorem parsing_unclosed (h : At ctx [123]) (hfuel : ctx.pattern.length < fuel) (asserts : Bool)
    (args : Bytes) : parsing asserts fuel ctx args = .error .assertion ∨
      ∃ status ctx', parsing asserts fuel ctx args = .ok (status, args, ctx') ∧
        ctx'.pattern = ctx.pattern ∧ At ctx' [123] := by
  obtain ⟨builder, front, rest, rfl, hfront, hbraces, hlen⟩ := h.exists_parts
  obtain ⟨builder', front₁, rest₁, k, hpattern₁, hfront₁, hbraces₁, hk, hmoves⟩ :=
    outside_open rfl hfront hbraces
  obtain ⟨fuel, rfl⟩ : ∃ i, fuel = i + k := ⟨fuel - k, by omega⟩
  obtain ⟨status, s, hmissing, hctx, hargs, hstatus⟩ :=
    inside_missing hpattern₁ hfront₁ hbraces₁ (by omega : rest₁.length < fuel)
  have hsame : s.ctx.pattern = front ++ rest ∧ s.ctx.pos = front.length := by
    rw [hctx]
    exact ⟨rfl, rfl⟩
  have hat' : At s.ctx [123] := h.of_eq hsame.1 hsame.2
  rw [parsing, hmoves, hmissing, ok_bind]
  rcases hstatus with rfl | ⟨rfl, hin⟩
  · right
    exact ⟨false, s.ctx, by rw [← hargs]; rfl, hsame.1, hat'⟩
  · by_cases hasserts : asserts = true
    · left
      dsimp only
      rw [if_pos ⟨hasserts, hin⟩]
    · right
      refine ⟨true, s.ctx, ?_, hsame.1, hat'⟩
      dsimp only
      rw [if_neg (fun hboth => hasserts hboth.1), ← hargs]
      rfl

/-- The brace that comes next closes outside, or opens inside of a placeholder. -/
theorem parsing_stuck (h : At ctx bs) (hbs : (∃ bs', bs = 125 :: bs') ∨ ∃ bs', bs = 123 :: 123 :: bs')
    (asserts : Bool) (fuel : ℕ) (args : Bytes) :
    parsing asserts fuel ctx args = .error (.fault .endlessLoop) := by
  obtain ⟨builder, front, rest, rfl, hfront, hbraces, -⟩ := h.exists_parts
  have hstop : iterate (.fault .endlessLoop) parsingRound fuel
      ⟨⟨builder, front ++ rest, front.length⟩, args, false, none, front.length⟩ =
        .error (.fault .endlessLoop) := by
    rcases hbs with ⟨bs', rfl⟩ | ⟨bs', rfl⟩
    · exact scan_stuck rfl hfront hbraces (by simp) fuel
    · obtain ⟨builder', front₁, rest₁, k, hpattern₁, hfront₁, hbraces₁, -, hmoves⟩ :=
        outside_open rfl hfront hbraces
      by_contra hne
      apply hne
      rw [← iterate_of_ne hne (Nat.le_add_right fuel k), hmoves]
      exact scan_stuck hpattern₁ hfront₁ hbraces₁ (by simp) fuel
  rw [parsing, hstop]
  rfl

variable {behind lit : Bytes}

theorem outside_literal (hpattern : pattern = front ++ (escape 92 isKeyWord lit ++ 123 :: behind))
    (hfront : front.getLast? ≠ some 92) (hlit : 92 ∉ lit) :
    ∃ k front', pattern = front' ++ behind ∧ front'.getLast? = some 123 ∧
      behind.length + k ≤ (escape 92 isKeyWord lit ++ 123 :: behind).length ∧
      ∀ fuel, iterate (.fault .endlessLoop) parsingRound (fuel + k)
          ⟨⟨builder, pattern, pos⟩, args, false, argsBuilder, front.length⟩ =
        iterate (.fault .endlessLoop) parsingRound fuel
          ⟨⟨builder ++ lit, pattern, pos⟩, args, true, argsBuilder, front'.length⟩ := by
  induction lit using special_induction isKeyWord generalizing front builder with
  | plain run hrun =>
    rw [escape_of_none hrun] at hpattern
    have hlast : run.getLast? ≠ some 92 := fun h => hlit (List.mem_of_getLast? h)
    refine ⟨1, front ++ run ++ [123], pattern_behind hpattern, List.getLast?_concat, ?_, ?_⟩
    · simp only [List.length_append, List.length_cons]
      omega
    · exact fun fuel => iterate_more (round_open hrun hfront hlast hpattern) fuel
  | next run ch lit hrun hch ih =>
    have hplain : ∀ x ∈ run ++ [92], isKeyWord x = false := by
      simpa [or_imp, forall_and, isKeyWord] using hrun
    have hcut : pattern = front ++ (run ++ [92] ++ ch :: (escape 92 isKeyWord lit ++ 123 :: behind)) := by
      rw [hpattern, escape_next hrun hch]
      simp
    have hround := @round_escape_outside front _ _ builder args pos _ argsBuilder _ hcut hplain hch
      hfront List.getLast?_concat
    obtain ⟨k, front', hpattern', hfront', hlen, hmoves⟩ :=
      @ih _ (builder ++ (run ++ [ch])) (pattern_behind hcut)
        (getLast?_brace front (run ++ [92]) hch) (fun h => hlit (by simp [h]))
    rw [List.dropLast_concat] at hround
    refine ⟨k + 1, front', hpattern', hfront', ?_, ?_⟩
    · rw [escape_next hrun hch]
      simp only [List.length_append, List.length_cons, List.length_nil] at hlen ⊢
      omega
    · intro fuel
      rw [← Nat.add_assoc, iterate_more hround, hmoves]
      simp

theorem outside_tail (hpattern : pattern = front ++ escape 92 isKeyWord lit)
    (hfront : front.getLast? ≠ some 92) (hfuel : (escape 92 isKeyWord lit).length < fuel) :
    ∃ status s, iterate (.fault .endlessLoop) parsingRound fuel
        ⟨⟨builder, pattern, pos⟩, args, false, argsBuilder, front.length⟩ = .ok (status, s) ∧
      status.getD true = true ∧ s.inArgs = false ∧ s.ctx.builder = builder ++ lit := by
  obtain ⟨fuel, rfl⟩ : ∃ k, fuel = k + 1 := ⟨fuel - 1, by omega⟩
  induction lit using special_induction isKeyWord generalizing front builder fuel with
  | plain run hrun =>
    rw [escape_of_none hrun] at hpattern
    by_cases hempty : run = []
    · subst hempty
      rw [List.append_nil] at hpattern ⊢
      exact ⟨none, _, iterate_done (round_leave (congrArg List.length hpattern.symm)) fuel, rfl, rfl,
        rfl⟩
    · exact ⟨some true, _, iterate_done (round_end hpattern hempty hrun) fuel, rfl, rfl, rfl⟩
  | next run ch lit hrun hch ih =>
    rw [escape_next hrun hch] at hpattern hfuel
    simp only [List.length_append, List.length_cons] at hfuel
    obtain ⟨fuel, rfl⟩ : ∃ k, fuel = k + 1 := ⟨fuel - 1, by omega⟩
    have hplain : ∀ x ∈ run ++ [92], isKeyWord x = false := by
      simpa [or_imp, forall_and, isKeyWord] using hrun
    have hround := @round_escape_outside front _ _ builder args pos _ argsBuilder _ hpattern hplain
      hch hfront List.getLast?_concat
    have hnext := @ih _ (builder ++ (run ++ [ch])) (pattern_behind hpattern)
      (getLast?_brace front (run ++ [92]) hch) fuel (by omega)
    rw [List.dropLast_concat] at hround
    rw [iterate_more hround]
    simpa using hnext

theorem parsing_placeholder
    (hpattern : pattern = front ++ (escape 92 isKeyWord lit ++ 123 :: 125 :: behind))
    (hfront : front.getLast? ≠ some 92) (hlit : 92 ∉ lit) (hfuel : pattern.length < fuel)
    (asserts : Bool) (args : Bytes) :
    ∃ front', parsing asserts fuel ⟨builder, pattern, front.length⟩ args =
        .ok (true, [], ⟨builder ++ lit, pattern, front'.length⟩) ∧
      pattern = front' ++ behind ∧ front'.getLast? ≠ some 92 := by
  obtain ⟨k, front₁, hpattern₁, hfront₁, hlen, hmoves⟩ :=
    @outside_literal front builder args front.length none pattern _ lit hpattern hfront hlit
  have hle : k + 1 ≤ fuel := by
    have hsize := congrArg List.length hpattern
    rw [List.length_append] at hsize
    rw [List.length_cons] at hlen
    omega
  obtain ⟨fuel, rfl⟩ : ∃ i, fuel = i + 1 + k := ⟨fuel - 1 - k, by omega⟩
  have hopen : front₁.getLast? ≠ some 92 := by
    rw [hfront₁]
    decide
  have hclose := @round_close front₁ [] behind (builder ++ lit) args front.length none pattern (by simp)
    hopen (by simp) (by simpa using hpattern₁)
  refine ⟨front₁ ++ [] ++ [125], ?_, by simpa using hpattern₁, ?_⟩
  · have hiterate := (hmoves (fuel + 1)).trans (iterate_done hclose fuel)
    exact parsing_of_iterate hiterate rfl asserts
  · rw [List.getLast?_concat]
    decide

theorem parsing_tail (hpattern : pattern = front ++ escape 92 isKeyWord lit)
    (hfront : front.getLast? ≠ some 92) (hfuel : pattern.length < fuel) (asserts : Bool)
    (args : Bytes) : ∃ args' ctx', parsing asserts fuel ⟨builder, pattern, front.length⟩ args =
      .ok (true, args', ctx') ∧ ctx'.builder = builder ++ lit := by
  have hsize := congrArg List.length hpattern
  rw [List.length_append] at hsize
  obtain ⟨status, s, hiterate, hstatus, hout, hbuilder⟩ :=
    @outside_tail front builder args front.length none pattern fuel lit hpattern hfront (by omega)
  refine ⟨s.args, s.ctx, ?_, hbuilder⟩
  rw [parsing_of_iterate hiterate hout, hstatus]

end Sese.Text
