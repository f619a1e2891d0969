import Sese.Text.FormatScan

/-!
# Patterns that `fmt` comes to an end with

The braces without a backslash in front of them have to open and close in turn. With literals that
have their braces escaped, and `{}` between them, the arguments stand between the literals.
-/
namespace Sese.Text

open Foundation

variable {args : Bytes} {ctx : FmtCtx} {bs : List UInt8} {asserts : Bool} {fuel : ℕ}

@[simp] theorem write_pattern (arg : Argument) (parsingArgs : Bytes) (ctx : FmtCtx) :
    (arg.write parsingArgs ctx).pattern = ctx.pattern := by
  unfold Argument.write
  split_ifs
  · cases arg.parse parsingArgs <;> rfl
  · rfl

@[simp] theorem write_pos (arg : Argument) (parsingArgs : Bytes) (ctx : FmtCtx) :
    (arg.write parsingArgs ctx).pos = ctx.pos := by
  unfold Argument.write
  split_ifs
  · cases arg.parse parsingArgs <;> rfl
  · rfl

theorem At.write (h : At ctx bs) (arg : Argument) (parsingArgs : Bytes) :
    At (arg.write parsingArgs ctx) bs :=
  h.of_eq (write_pattern arg parsingArgs ctx) (write_pos arg parsingArgs ctx)

/-- The call comes back, or ends the program with an assertion. -/
def ComesBack {α : Type} (x : Except Stop α) : Prop := (∃ a, x = .ok a) ∨ x = .error .assertion

theorem comesBack_ok {α : Type} (a : α) : ComesBack (.ok a : Except Stop α) := Or.inl ⟨a, rfl⟩

theorem not_comesBack_fault {α : Type} (fault : Fault) : ¬ ComesBack (.error (.fault fault) : Except Stop α) := by
  rintro (⟨a, h⟩ | h) <;> cases h

theorem format_of_error {e : Stop} (h : parsing asserts fuel ctx [] = .error e) (arg : Argument)
    (rest : List Argument) : format asserts fuel ctx arg rest = .error e := by
  cases rest <;> rw [format, h, error_bind]

theorem format_last {ctx' : FmtCtx} (h : parsing asserts fuel ctx [] = .ok (true, args, ctx'))
    (arg : Argument) : format asserts fuel ctx arg [] =
      (parsing asserts fuel (arg.write args ctx') args).map fun r => r.2.2 := by
  rw [format, h, ok_bind]
  dsimp only
  rw [if_neg (by simp)]
  cases parsing asserts fuel (arg.write args ctx') args <;> rfl

theorem format_next {ctx' : FmtCtx} (h : parsing asserts fuel ctx [] = .ok (true, args, ctx'))
    (arg next : Argument) (rest : List Argument) : format asserts fuel ctx arg (next :: rest) =
      format asserts fuel (arg.write args ctx') next rest := by
  rw [format, h, ok_bind]
  rfl

/-- The braces are those of a pattern that is right, or not closed, or one is out of turn. -/
theorem At.cases (h : At ctx bs) : bs = [] ∨ bs = [123] ∨ (∃ bs', bs = 123 :: 125 :: bs') ∨
    ((∃ bs', bs = 125 :: bs') ∨ ∃ bs', bs = 123 :: 123 :: bs') := by
  match bs with
  | [] => exact Or.inl rfl
  | [a] =>
    rcases h.mem (by simp : a ∈ [a]) with rfl | rfl
    · exact Or.inr (Or.inl rfl)
    · exact Or.inr (Or.inr (Or.inr (Or.inl ⟨[], rfl⟩)))
  | a :: b :: bs =>
    rcases h.mem (by simp : a ∈ a :: b :: bs) with rfl | rfl
    · rcases h.mem (by simp : b ∈ 123 :: b :: bs) with rfl | rfl
      · exact Or.inr (Or.inr (Or.inr (Or.inr ⟨bs, rfl⟩)))
      · exact Or.inr (Or.inr (Or.inl ⟨bs, rfl⟩))
    · exact Or.inr (Or.inr (Or.inr (Or.inl ⟨b :: bs, rfl⟩)))

theorem paired_next (bs : List UInt8) : paired 123 125 (123 :: 125 :: bs) = paired 123 125 bs := by
  simp [paired]

theorem not_paired (hbs : (∃ bs', bs = 125 :: bs') ∨ ∃ bs', bs = 123 :: 123 :: bs') :
    ¬ paired 123 125 bs = true := by
  rcases hbs with ⟨bs', rfl⟩ | ⟨bs', rfl⟩
  · cases bs' <;> simp [paired]
  · simp [paired]

/-- Every call of `parsing` finds a pair of braces, or the last one an open brace. -/
theorem format_comesBack (h : At ctx bs) (hfuel : ctx.pattern.length < fuel)
    (hpaired : paired 123 125 bs = true) (asserts : Bool) (arg : Argument) (rest : List Argument)
    (hcount : bs.count 123 = rest.length + 1) : ComesBack (format asserts fuel ctx arg rest) := by
  induction rest generalizing ctx bs arg with
  | nil =>
    rcases h.cases with rfl | rfl | ⟨bs, rfl⟩ | hstuck
    · simp at hcount
    · -- the pass over the open brace is repeated
      rcases parsing_unclosed h hfuel asserts [] with herror | ⟨status, ctx', hparsing, hsame, hat⟩
      · exact Or.inr (format_of_error herror arg [])
      · cases status with
        | false =>
          rw [format, hparsing, ok_bind]
          exact comesBack_ok ctx'
        | true =>
          rw [format_last hparsing]
          rcases parsing_unclosed (hat.write arg []) (by rwa [write_pattern, hsame]) asserts [] with
            herror | ⟨status, ctx'', hparsing', -⟩
          · rw [herror]
            exact Or.inr rfl
          · rw [hparsing']
            exact comesBack_ok ctx''
    · obtain ⟨args, ctx', hparsing, hsame, hat⟩ := parsing_next h hfuel asserts []
      rw [paired_next] at hpaired
      have hnone : bs = [] := by
        rcases hat.cases with rfl | rfl | ⟨bs, rfl⟩ | hstuck
        · rfl
        · simp at hcount
        · simp at hcount
        · exact absurd hpaired (not_paired hstuck)
      subst hnone
      obtain ⟨ctx'', hend⟩ :=
        parsing_end (hat.write arg args) (by rwa [write_pattern, hsame]) asserts args
      rw [format_last hparsing, hend]
      exact comesBack_ok ctx''
    · exact absurd hpaired (not_paired hstuck)
  | cons next rest ih =>
    rw [List.length_cons] at hcount
    rcases h.cases with rfl | rfl | ⟨bs, rfl⟩ | hstuck
    · simp at hcount
    · simp at hcount
    · obtain ⟨args, ctx', hparsing, hsame, hat⟩ := parsing_next h hfuel asserts []
      rw [paired_next] at hpaired
      rw [format_next hparsing]
      exact ih (hat.write arg args) (by rwa [write_pattern, hsame]) hpaired next (by simpa using hcount)
    · exact absurd hpaired (not_paired hstuck)

/-- A brace that is out of turn is met at the latest by the last call of `parsing`. -/
theorem format_stuck (h : At ctx bs) (hpaired : ¬ paired 123 125 bs = true) (asserts : Bool)
    (fuel : ℕ) (arg : Argument) (rest : List Argument) (hcount : bs.count 123 = rest.length + 1) :
    format asserts fuel ctx arg rest = .error (.fault .endlessLoop) := by
  induction rest generalizing ctx bs arg with
  | nil =>
    rcases h.cases with rfl | rfl | ⟨bs, rfl⟩ | hstuck
    · exact absurd rfl hpaired
    · exact absurd rfl hpaired
    · rcases parsing_next_or h asserts fuel [] with hstop | ⟨args, ctx', hparsing, -, hat⟩
      · exact format_of_error hstop arg []
      · rw [paired_next] at hpaired
        have hstuck : (∃ bs', bs = 125 :: bs') ∨ ∃ bs', bs = 123 :: 123 :: bs' := by
          rcases hat.cases with rfl | rfl | ⟨bs, rfl⟩ | hstuck
          · exact absurd rfl hpaired
          · exact absurd rfl hpaired
          · simp at hcount
          · exact hstuck
        rw [format_last hparsing, parsing_stuck (hat.write arg args) hstuck]
        rfl
    · exact format_of_error (parsing_stuck h hstuck asserts fuel []) arg []
  | cons next rest ih =>
    rcases h.cases with rfl | rfl | ⟨bs, rfl⟩ | hstuck
    · exact absurd rfl hpaired
    · exact absurd rfl hpaired
    · rcases parsing_next_or h asserts fuel [] with hstop | ⟨args, ctx', hparsing, -, hat⟩
      · exact format_of_error hstop arg (next :: rest)
      · rw [paired_next] at hpaired
        rw [format_next hparsing]
        exact ih (hat.write arg args) hpaired next (by simpa using hcount)
    · exact format_of_error (parsing_stuck h hstuck asserts fuel []) arg (next :: rest)

theorem at_start (pattern : Bytes) : At ⟨[], pattern, 0⟩ (braces pattern) :=
  ⟨[], pattern, rfl, rfl, by simp, rfl⟩

/-- `fmt` comes to an end exactly if there is something in front of the NUL, so that the counter
does not pass it, and the braces without a backslash open and close in turn, if they are looked at:
there is an argument, and as many of them as of the braces that open. -/
theorem fmt_comesBack_iff (asserts : Bool) (pattern : Bytes) (h : (0 : UInt8) ∉ pattern)
    (args : List Argument) :
    (∃ fuel, ComesBack (fmt asserts fuel (pattern ++ [0]) pattern.length args)) ↔
      pattern ≠ [] ∧ (args = [] ∨ (braces pattern).count 123 ≠ args.length ∨
        paired 123 125 (braces pattern) = true) := by
  by_cases hempty : pattern = []
  · subst hempty
    constructor
    · rintro ⟨fuel, hcomes⟩
      exact absurd hcomes (not_comesBack_fault .overread)
    · exact fun hboth => absurd rfl hboth.1
  · have hcounter := formatParameterCounter_eq hempty h []
    simp only [fmt, hcounter, ok_bind, List.take_left]
    cases args with
    | nil =>
      refine iff_of_true ⟨0, ?_⟩ ⟨hempty, Or.inl rfl⟩
      dsimp only
      split_ifs
      · exact comesBack_ok _
      · exact comesBack_ok _
    | cons arg rest =>
      by_cases hcount : (braces pattern).count 123 = (arg :: rest).length
      · by_cases hpaired : paired 123 125 (braces pattern) = true
        · refine iff_of_true ⟨pattern.length + 1, ?_⟩ ⟨hempty, Or.inr (Or.inr hpaired)⟩
          have hcomes := format_comesBack (at_start pattern) (Nat.lt_succ_self _) hpaired asserts arg rest
            hcount
          dsimp only
          rw [if_neg (not_not.mpr hcount)]
          rcases hcomes with ⟨ctx, hok⟩ | herror
          · rw [hok]
            exact comesBack_ok _
          · rw [herror]
            exact Or.inr rfl
        · refine iff_of_false ?_ ?_
          · rintro ⟨fuel, hcomes⟩
            dsimp only at hcomes
            rw [if_neg (not_not.mpr hcount),
              format_stuck (at_start pattern) hpaired asserts fuel arg rest hcount] at hcomes
            exact absurd hcomes (not_comesBack_fault .endlessLoop)
          · rintro ⟨-, hnil | hne | hyes⟩
            · cases hnil
            · exact hne hcount
            · exact hpaired hyes
      · refine iff_of_true ⟨0, ?_⟩ ⟨hempty, Or.inr (Or.inl hcount)⟩
        dsimp only
        rw [if_pos hcount]
        exact comesBack_ok _

theorem fmt_comesBack_iff_braces : (0 : UInt8) ∉ bytes "\x7b\x7d" ∧
    ((∃ fuel, ComesBack (fmt true fuel (bytes "\x7b\x7d" ++ [0]) (bytes "\x7b\x7d").length
      [.ofString [97]])) ↔
      bytes "\x7b\x7d" ≠ [] ∧ ([Argument.ofString [97]] = [] ∨
        (braces (bytes "\x7b\x7d")).count 123 ≠ [Argument.ofString [97]].length ∨
        paired 123 125 (braces (bytes "\x7b\x7d")) = true)) :=
  ⟨by decide, fmt_comesBack_iff true _ (by decide) _⟩

/-- The empty pattern is passed with its NUL, and the scan never passes the first brace of `}{}`. -/
theorem not_comesBack_closed : (∀ fuel, ¬ ComesBack (fmt true fuel [0] 0 [])) ∧
    ∀ fuel, ¬ ComesBack (fmt true fuel [125, 123, 125, 0] 3 [.ofString [97]]) := by
  refine ⟨fun fuel => not_comesBack_fault .overread, fun fuel hcomes => ?_⟩
  have hcounter : formatParameterCounter [125, 123, 125, 0] = .ok 1 := by decide
  have hstuck := format_stuck (at_start [125, 123, 125]) (by decide) true fuel (.ofString [97]) []
    (by decide)
  simp only [fmt, hcounter, ok_bind] at hcomes
  rw [if_neg (by decide)] at hcomes
  change ComesBack (format true fuel ⟨[], [125, 123, 125], 0⟩ (.ofString [97]) [] >>= _) at hcomes
  rw [hstuck] at hcomes
  exact not_comesBack_fault .endlessLoop hcomes

/-- The literals with a backslash in front of each brace, joined by `{}`. -/
def patternOf (literals : List Bytes) : Bytes :=
  List.intercalate [123, 125] (literals.map (escape 92 isKeyWord))

def substituted : List Bytes → List Bytes → Bytes
  | lit :: literals, arg :: args => lit ++ arg ++ substituted literals args
  | lit :: _, [] => lit
  | [], _ => []

theorem patternOf_cons (lit next : Bytes) (literals : List Bytes) :
    patternOf (lit :: next :: literals) =
      escape 92 isKeyWord lit ++ 123 :: 125 :: patternOf (next :: literals) := by
  simp [patternOf, List.intercalate_cons_cons]

theorem patternOf_singleton (lit : Bytes) : patternOf [lit] = escape 92 isKeyWord lit := by
  simp [patternOf]

theorem zero_notMem_patternOf {literals : List Bytes} (h : ∀ lit ∈ literals, (0 : UInt8) ∉ lit) :
    (0 : UInt8) ∉ patternOf literals := by
  have hescape : ∀ lit ∈ literals, (0 : UInt8) ∉ escape 92 isKeyWord lit := by
    intro lit hlit hmem
    rcases mem_escape hmem with hzero | hmem
    · exact absurd hzero (by decide)
    · exact h lit hlit hmem
  induction literals with
  | nil => simp [patternOf, List.intercalate]
  | cons lit literals ih =>
    have hfirst := hescape lit (by simp)
    cases literals with
    | nil => rwa [patternOf_singleton]
    | cons next literals =>
      have hrest := ih (fun l hl => h l (by simp [hl])) (fun l hl => hescape l (by simp [hl]))
      rw [patternOf_cons]
      simp [hfirst, hrest]

theorem count_patternOf (lit : Bytes) (literals : List Bytes) (h : ∀ l ∈ lit :: literals, 92 ∉ l) :
    (braces (patternOf (lit :: literals))).count 123 = literals.length := by
  induction literals generalizing lit with
  | nil =>
    have hnone : marks 92 isKeyWord false (escape 92 isKeyWord lit ++ []) = [] :=
      marks_escape rfl (h lit (by simp)) []
    rw [List.append_nil] at hnone
    rw [patternOf_singleton, braces, hnone]
    rfl
  | cons next literals ih =>
    have hrest := ih next fun l hl => h l (by simp [hl])
    rw [patternOf_cons, braces, marks_escape rfl (h lit (by simp))]
    have hpair : marks 92 isKeyWord false (123 :: 125 :: patternOf (next :: literals)) =
        123 :: 125 :: braces (patternOf (next :: literals)) := by
      simp [marks, isKeyWord, braces]
    rw [hpair, List.count_cons_self, List.count_cons_of_ne (by decide), hrest, List.length_cons]

theorem write_ofString (value : Bytes) (ctx : FmtCtx) :
    (Argument.ofString value).write [] ctx = { ctx with builder := ctx.builder ++ value } := by
  simp [Argument.write, Argument.ofString, formatOptionStringFormat]

theorem format_literals {front pattern builder : Bytes} (asserts : Bool) (lit next : Bytes)
    (literals : List Bytes) (arg : Bytes) (args : List Bytes)
    (hpattern : pattern = front ++ patternOf (lit :: next :: literals))
    (hfront : front.getLast? ≠ some 92) (hfuel : pattern.length < fuel)
    (hlen : literals.length = args.length) (hlit : ∀ l ∈ lit :: next :: literals, 92 ∉ l) :
    ∃ ctx, format asserts fuel ⟨builder, pattern, front.length⟩ (.ofString arg)
        (args.map .ofString) = .ok ctx ∧
      ctx.builder = builder ++ substituted (lit :: next :: literals) (arg :: args) := by
  induction args generalizing lit next literals arg front builder with
  | nil =>
    obtain rfl := List.length_eq_zero_iff.mp hlen
    rw [patternOf_cons] at hpattern
    obtain ⟨front', hparsing, hpattern', hfront'⟩ :=
      @parsing_placeholder front builder pattern fuel _ lit hpattern hfront (hlit lit (by simp)) hfuel
        asserts []
    rw [patternOf_singleton] at hpattern'
    obtain ⟨args', ctx', htail, hbuilder⟩ :=
      @parsing_tail front' (builder ++ lit ++ arg) pattern fuel next hpattern' hfront' hfuel asserts []
    refine ⟨ctx', ?_, ?_⟩
    · rw [List.map_nil, format_last hparsing, write_ofString, htail]
      rfl
    · rw [hbuilder]
      simp [substituted]
  | cons arg' args ih =>
    obtain ⟨last, literals, rfl⟩ := List.exists_cons_of_length_eq_add_one hlen
    rw [patternOf_cons] at hpattern
    obtain ⟨front', hparsing, hpattern', hfront'⟩ :=
      @parsing_placeholder front builder pattern fuel _ lit hpattern hfront (hlit lit (by simp)) hfuel
        asserts []
    obtain ⟨ctx, hformat, hbuilder⟩ := @ih front' (builder ++ lit ++ arg) next last literals arg'
      hpattern' hfront' (by simpa using hlen) fun l hl => hlit l (by simp [hl])
    refine ⟨ctx, ?_, ?_⟩
    · rw [List.map_cons, format_next hparsing, write_ofString, hformat]
    · rw [hbuilder]
      simp [substituted]

/-- With literals and placeholders in turn `fmt` gives the literals with the arguments between
them. -/
theorem fmt_literals (asserts : Bool) (literals args : List Bytes)
    (hlen : literals.length = args.length + 1) (hargs : args ≠ [])
    (hlit : ∀ lit ∈ literals, 92 ∉ lit ∧ 0 ∉ lit) {fuel : ℕ}
    (hfuel : (patternOf literals).length < fuel) :
    fmt asserts fuel (patternOf literals ++ [0]) (patternOf literals).length
      (args.map .ofString) = .ok (substituted literals args) := by
  cases args with
  | nil => exact absurd rfl hargs
  | cons arg args =>
    obtain ⟨lit, rest, rfl⟩ := List.exists_cons_of_length_eq_add_one hlen
    obtain ⟨next, literals, rfl⟩ := List.exists_cons_of_length_eq_add_one (by simpa using hlen)
    have hplain : ∀ l ∈ lit :: next :: literals, 92 ∉ l := fun l hl => (hlit l hl).1
    have hzero := zero_notMem_patternOf fun l hl => (hlit l hl).2
    have hne : patternOf (lit :: next :: literals) ≠ [] := by simp [patternOf_cons]
    have hcount := count_patternOf lit (next :: literals) hplain
    obtain ⟨ctx, hformat, hbuilder⟩ := @format_literals fuel [] _ [] asserts lit next literals arg args
      (List.nil_append _).symm (by simp) hfuel (by simpa using hlen) hplain
    rw [List.length_nil] at hformat
    have hsame : (next :: literals).length = ((arg :: args).map Argument.ofString).length := by
      simpa using hlen
    rw [fmt, formatParameterCounter_eq hne hzero, ok_bind, hcount, List.take_left]
    rw [List.map_cons] at hsame ⊢
    dsimp only
    rw [if_neg (not_not.mpr hsame), hformat, ok_bind, hbuilder]
    rfl

theorem fmt_literals_sample : ([[97, 123], [125]] : List Bytes).length = [[98]].length + 1 ∧
    ([[98]] : List Bytes) ≠ [] ∧ (∀ lit ∈ ([[97, 123], [125]] : List Bytes), 92 ∉ lit ∧ 0 ∉ lit) ∧
    (patternOf [[97, 123], [125]]).length < 8 ∧
    fmt true 8 (patternOf [[97, 123], [125]] ++ [0]) (patternOf [[97, 123], [125]]).length
      ([[98]].map .ofString) = .ok [97, 123, 98, 125] :=
  ⟨by decide, by decide, by decide, by decide,
    fmt_literals true [[97, 123], [125]] [[98]] (by decide) (by decide) (by decide) (by decide)⟩

end Sese.Text
