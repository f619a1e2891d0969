import Sese.Config.JsonStreamify

/-!
# Round trip of a tree

A tree comes back from its text when none of its lists and dictionaries has `2 ^ 32` elements. The
count on the stack of `streamify` is an `unsigned int`: it never reaches the length of a longer
list, whose elements are then written over and over.
-/
namespace Sese.Json

open Foundation

variable {δ : Type}

/-- A list with more elements than an `unsigned int` counts is in the tree. -/
def ContainsLong (value : Value δ) : Prop :=
  ∃ values, Value.Inside (.list values) value ∧ 2 ^ 32 ≤ values.length

/-- The stack has come to such a list, or has it before it. An entry of a dictionary has its
iterator on the other stack. -/
inductive Doomed : List (Value δ × ℕ) → List (List (Bytes × Value δ)) → Prop
  | long {values : List (Value δ)} {count : ℕ} (stack : List (Value δ × ℕ))
    (iters : List (List (Bytes × Value δ))) : 2 ^ 32 ≤ values.length → count < 2 ^ 32 →
    Doomed ((.list values, count) :: stack) iters
  | list {values : List (Value δ)} {count : ℕ} {v : Value δ} (stack : List (Value δ × ℕ))
    (iters : List (List (Bytes × Value δ))) : values.length < 2 ^ 32 → v ∈ values.drop count →
    ContainsLong v → Doomed ((.list values, count) :: stack) iters
  | dict {members iter : List (Bytes × Value δ)} {done : ℕ} {e : Bytes × Value δ}
    (stack : List (Value δ × ℕ)) (iters : List (List (Bytes × Value δ))) :
    members.length = done + iter.length → e ∈ iter → ContainsLong e.2 →
    Doomed ((.dict members, done % 2 ^ 32) :: stack) (iter :: iters)
  | belowList {stack : List (Value δ × ℕ)} {iters : List (List (Bytes × Value δ))}
    (values : List (Value δ)) (count : ℕ) : Doomed stack iters →
    Doomed ((.list values, count) :: stack) iters
  | belowDict {stack : List (Value δ × ℕ)} {iters : List (List (Bytes × Value δ))}
    (members : List (Bytes × Value δ)) (count : ℕ) (iter : List (Bytes × Value δ)) :
    Doomed stack iters → Doomed ((.dict members, count) :: stack) (iter :: iters)

theorem Doomed.under {stack : List (Value δ × ℕ)} {iters : List (List (Bytes × Value δ))}
    (h : Doomed stack iters) {value : Value δ} (hcontainer : value.isContainer) :
    Doomed ((value, 0) :: stack) (iterOf value ++ iters) := by
  cases value with
  | list values => exact .belowList values 0 h
  | dict members => exact .belowDict members 0 members h
  | _ => cases hcontainer

/-- A container with a long list in it goes on the stack. -/
theorem ContainsLong.doomed {value : Value δ} (h : ContainsLong value) (stack : List (Value δ × ℕ))
    (iters : List (List (Bytes × Value δ))) :
    value.isContainer ∧ Doomed ((value, 0) :: stack) (iterOf value ++ iters) := by
  obtain ⟨long, hinside, hlength⟩ := h
  cases hinside with
  | self => exact ⟨rfl, .long stack iters hlength (by decide)⟩
  | @element _ values hv hinside =>
    refine ⟨rfl, ?_⟩
    by_cases hvalues : 2 ^ 32 ≤ values.length
    · exact .long stack iters hvalues (by decide)
    · exact .list stack iters (not_le.mp hvalues) hv ⟨long, hinside, hlength⟩
  | member he hinside =>
    refine ⟨rfl, ?_⟩
    have hdict := Doomed.dict stack iters (Nat.zero_add _).symm he ⟨long, hinside, hlength⟩
    exact hdict

/-- What a call leads to: neither the end of the container nor a stack without the long list. -/
def StaysDoomed (value : Value δ) (stack : List (Value δ × ℕ)) :
    Streamed δ × List (List (Bytes × Value δ)) → Prop
  | (.failed _, _) => True
  | (.done _, _) => False
  | (.nested count child news _, iters) =>
    Doomed ((child, 0) :: (value, count) :: stack) (news ++ iters)

theorem StaysDoomed.after {value : Value δ} {stack : List (Value δ × ℕ)} {streamed : Streamed δ}
    {iters : List (List (Bytes × Value δ))} (h : StaysDoomed value stack (streamed, iters))
    (front : Bytes) : StaysDoomed value stack (streamed.after front, iters) := by
  cases streamed <;> exact h

/-- What a call leads to: the stack still has the long list, without the container where that is
done. -/
def LeadsDoomed (value : Value δ) (stack : List (Value δ × ℕ)) :
    Streamed δ × List (List (Bytes × Value δ)) → Prop
  | (.failed _, _) => True
  | (.done _, iters) => Doomed stack iters
  | (.nested count child news _, iters) =>
    Doomed ((child, 0) :: (value, count) :: stack) (news ++ iters)

theorem StaysDoomed.leads {value : Value δ} {stack : List (Value δ × ℕ)}
    {called : Streamed δ × List (List (Bytes × Value δ))} (h : StaysDoomed value stack called) :
    LeadsDoomed value stack called := by
  obtain ⟨streamed, iters⟩ := called
  cases streamed with
  | failed out => trivial
  | done out => exact h.elim
  | nested count child news out => exact h

/-- What the loop of `streamifyArray` leads to from an index on. -/
inductive ElementsLead (values : List (Value δ)) : ℕ → Streamed δ → Prop
  | done {count : ℕ} : values.length ≤ count → ElementsLead values count (.done [])
  | container {count : ℕ} {v : Value δ} : values[count]? = some v → v.isContainer →
    ElementsLead values count
      (.nested ((count + 1) % 2 ^ 32) v (iterOf v) (separator 91 count values.length))
  | failed (count : ℕ) (out : Bytes) : ElementsLead values count (.failed out)
  | last {count : ℕ} {v : Value δ} (out : Bytes) : values[count]? = some v →
    v.isContainer = false → (count + 1) % 2 ^ 32 = values.length →
    ElementsLead values count (.done out)
  | next {count : ℕ} {v : Value δ} {rest : Streamed δ} (front : Bytes) : values[count]? = some v →
    v.isContainer = false → (count + 1) % 2 ^ 32 ≠ values.length →
    ElementsLead values ((count + 1) % 2 ^ 32) rest → ElementsLead values count (rest.after front)

/-- The count never gets to the end of a long list. -/
theorem staysDoomed_long {values : List (Value δ)} (hlong : 2 ^ 32 ≤ values.length)
    (stack : List (Value δ × ℕ)) (iters : List (List (Bytes × Value δ))) {count : ℕ}
    {streamed : Streamed δ} (h : ElementsLead values count streamed) (hcount : count < 2 ^ 32) :
    StaysDoomed (.list values) stack (streamed, iters) := by
  have hnext (count : ℕ) : (count + 1) % 2 ^ 32 < 2 ^ 32 := Nat.mod_lt _ (by decide)
  induction h with
  | done hend => omega
  | @container count v hget hcontainer =>
    exact Doomed.under (.long stack iters hlong (hnext count)) hcontainer
  | failed count out => trivial
  | @last count v out hget hword hlast =>
    have := hnext count
    omega
  | @next count v rest front hget hword hlast _ ih => exact (ih (hnext count)).after front

theorem staysDoomed_list {values : List (Value δ)} (hshort : values.length < 2 ^ 32)
    (stack : List (Value δ × ℕ)) (iters : List (List (Bytes × Value δ))) {count : ℕ} {v : Value δ}
    {streamed : Streamed δ} (h : ElementsLead values count streamed) (hv : v ∈ values.drop count)
    (hlong : ContainsLong v) : StaysDoomed (.list values) stack (streamed, iters) := by
  have hbound {count : ℕ} (hv : v ∈ values.drop count) : count < values.length := by
    by_contra hge
    rw [List.drop_eq_nil_of_le (not_lt.mp hge)] at hv
    cases hv
  have hnext {count : ℕ} (hv : v ∈ values.drop count) : (count + 1) % 2 ^ 32 = count + 1 :=
    Nat.mod_eq_of_lt (by have := hbound hv; omega)
  have hdrop {count : ℕ} {w : Value δ} (hget : values[count]? = some w)
      (hv : v ∈ values.drop count) : v = w ∨ v ∈ values.drop (count + 1) := by
    obtain ⟨hlt, rfl⟩ := List.getElem?_eq_some_iff.mp hget
    rw [List.drop_eq_getElem_cons hlt] at hv
    exact List.mem_cons.mp hv
  have hword' {count : ℕ} {w : Value δ} (hget : values[count]? = some w)
      (hword : w.isContainer = false) (hv : v ∈ values.drop count) : v ∈ values.drop (count + 1) := by
    refine (hdrop hget hv).resolve_left ?_
    rintro rfl
    exact absurd (hlong.doomed stack iters).1 (by simp [hword])
  induction h with
  | done hend =>
    have := hbound hv
    omega
  | @container count w hget hcontainer =>
    rw [hnext hv]
    rcases hdrop hget hv with rfl | hrest
    · exact (hlong.doomed _ iters).2
    · exact Doomed.under (.list stack iters hshort hrest hlong) hcontainer
  | failed count out => trivial
  | last out hget hword hlast =>
    have := hbound (hword' hget hword hv)
    rw [hnext hv] at hlast
    omega
  | next front hget hword hlast _ ih =>
    rw [hnext hv] at ih
    exact (ih (hword' hget hword hv)).after front

/-- Only a container goes on the stack, with its iterator in front of those of the caller. -/
def Nests (own : List (List (Bytes × Value δ)) → Prop) : Streamed δ → Prop
  | .nested _ child news _ => child.isContainer ∧ ∃ rest, news = iterOf child ++ rest ∧ own rest
  | _ => True

theorem Nests.after {own : List (List (Bytes × Value δ)) → Prop} {streamed : Streamed δ}
    (h : Nests own streamed) (front : Bytes) : Nests own (streamed.after front) := by
  cases streamed <;> exact h

theorem ElementsLead.nests {values : List (Value δ)} {count : ℕ} {streamed : Streamed δ}
    (h : ElementsLead values count streamed) : Nests (· = []) streamed := by
  induction h with
  | container hget hcontainer => exact ⟨hcontainer, [], (List.append_nil _).symm, rfl⟩
  | done _ => trivial
  | failed _ _ => trivial
  | last _ _ _ _ => trivial
  | next front _ _ _ _ ih => exact ih.after front

theorem prepend_ne {front out : Bytes} {streamed : Except Fault (Bool × Bytes)}
    (h : ∀ text, streamed ≠ .ok (true, text)) : prepend front streamed ≠ .ok (true, out) := by
  intro heq
  cases streamed with
  | error fault => cases heq
  | ok r =>
    obtain ⟨rt, text⟩ := r
    cases heq
    exact h text rfl

variable [Double δ]

theorem elementsLead {values : List (Value δ)} {f count : ℕ} {streamed : Streamed δ}
    (h : streamifyElements values f count = .ok streamed) : ElementsLead values count streamed := by
  induction f generalizing count streamed with
  | zero => cases h
  | succ f ih =>
    cases hget : values[count]? with
    | none =>
      rw [streamifyElements, hget] at h
      cases h
      exact .done (List.getElem?_eq_none_iff.mp hget)
    | some v =>
      by_cases hcontainer : v.isContainer
      · rw [streamifyElements_container hget hcontainer] at h
        cases h
        exact .container hget hcontainer
      · have hword : v.isContainer = false := by simpa using hcontainer
        cases htext : streamifyBasic v with
        | none =>
          rw [streamifyElements_failed hget hword htext] at h
          cases h
          exact .failed count _
        | some text =>
          rw [streamifyElements_word hget hword htext] at h
          split_ifs at h with hlast
          · cases h
            exact .last _ hget hword hlast
          · cases hrest : streamifyElements values f ((count + 1) % 2 ^ 32) with
            | error fault =>
              rw [hrest] at h
              cases h
            | ok rest =>
              rw [hrest] at h
              cases h
              exact .next _ hget hword hlast (ih hrest)

theorem staysDoomed_dict {members iter : List (Bytes × Value δ)} {done : ℕ} {e : Bytes × Value δ}
    (stack : List (Value δ × ℕ)) (iters : List (List (Bytes × Value δ)))
    (hlength : members.length = done + iter.length) (he : e ∈ iter) (hlong : ContainsLong e.2) :
    StaysDoomed (.dict members) stack
      (streamifyMembers members.length (done % 2 ^ 32) iter, iters) := by
  induction iter generalizing done with
  | nil => cases he
  | cons a iter ih =>
    obtain ⟨name, value⟩ := a
    have hnext : (done % 2 ^ 32 + 1) % 2 ^ 32 = (done + 1) % 2 ^ 32 := Nat.mod_add_mod done _ 1
    have hlength' : members.length = done + 1 + iter.length := by
      rw [hlength, List.length_cons]
      omega
    by_cases hcontainer : value.isContainer
    · rw [streamifyMembers_container hcontainer, hnext, StaysDoomed, List.append_assoc]
      rcases List.mem_cons.mp he with rfl | he
      · exact (hlong.doomed _ _).2
      · exact Doomed.under (.dict stack iters hlength' he hlong) hcontainer
    · have hword : value.isContainer = false := by simpa using hcontainer
      have hrest : e ∈ iter := by
        refine (List.mem_cons.mp he).resolve_left ?_
        rintro rfl
        exact hcontainer (hlong.doomed stack iters).1
      have hlast : (done + 1) % 2 ^ 32 ≠ members.length := by
        have hle := Nat.mod_le (done + 1) (2 ^ 32)
        have hpos := List.length_pos_of_mem hrest
        omega
      cases htext : streamifyBasic value with
      | none =>
        rw [streamifyMembers_failed hword htext]
        trivial
      | some text =>
        rw [streamifyMembers_word hword htext, hnext, if_neg hlast]
        exact (ih hlength' hrest).after _

theorem streamifyMembers_nests (size count : ℕ) (iter : List (Bytes × Value δ)) :
    Nests (fun rest => ∃ iter, rest = [iter]) (streamifyMembers size count iter) := by
  induction iter generalizing count with
  | nil => trivial
  | cons e iter ih =>
    obtain ⟨name, value⟩ := e
    by_cases hcontainer : value.isContainer
    · rw [streamifyMembers_container hcontainer]
      exact ⟨hcontainer, [iter], rfl, iter, rfl⟩
    · have hword : value.isContainer = false := by simpa using hcontainer
      cases htext : streamifyBasic value with
      | none =>
        rw [streamifyMembers_failed hword htext]
        trivial
      | some text =>
        rw [streamifyMembers_word hword htext]
        split_ifs
        · trivial
        · exact (ih _).after _

theorem streamifyTop_list {fuel : ℕ} {values : List (Value δ)} {count : ℕ}
    {iters : List (List (Bytes × Value δ))} {called : Streamed δ × List (List (Bytes × Value δ))}
    (h : streamifyTop fuel (.list values) count iters = .ok called) :
    (∃ out, called = (.done out, iters) ∧ (values = [] ∨ count = values.length)) ∨
    ∃ streamed, called = (streamed, iters) ∧ ElementsLead values count streamed := by
  rw [streamifyTop, streamifyArray] at h
  split_ifs at h with hnil hcount
  · cases h
    exact .inl ⟨_, rfl, .inl hnil⟩
  · cases h
    exact .inl ⟨_, rfl, .inr hcount⟩
  · cases hrest : streamifyElements values fuel count with
    | error fault =>
      rw [hrest] at h
      cases h
    | ok streamed =>
      rw [hrest] at h
      cases h
      exact .inr ⟨streamed, rfl, elementsLead hrest⟩

theorem Doomed.leads {fuel count : ℕ} {value : Value δ} {stack : List (Value δ × ℕ)}
    {iters : List (List (Bytes × Value δ))} {called : Streamed δ × List (List (Bytes × Value δ))}
    (h : Doomed ((value, count) :: stack) iters) (hcalled : streamifyTop fuel value count iters = .ok called) :
    LeadsDoomed value stack called := by
  cases h with
  | long stack iters hlong hcount =>
    rcases streamifyTop_list hcalled with ⟨_, -, rfl | rfl⟩ | ⟨streamed, rfl, hlead⟩
    · simp at hlong
    · omega
    · exact (staysDoomed_long hlong _ iters hlead hcount).leads
  | list stack iters hshort hv hlong =>
    rcases streamifyTop_list hcalled with ⟨_, -, rfl | rfl⟩ | ⟨streamed, rfl, hlead⟩
    · simp at hv
    · simp at hv
    · exact (staysDoomed_list hshort _ iters hlead hv hlong).leads
  | @dict members iter done e stack iters hlength he hlong =>
    have hpos := List.length_pos_of_mem he
    have hle := Nat.mod_le done (2 ^ 32)
    have hne : members ≠ [] := by
      rintro rfl
      simp only [List.length_nil] at hlength
      omega
    rw [streamifyTop, streamifyObject, if_neg hne, if_neg (by omega)] at hcalled
    cases hcalled
    exact (staysDoomed_dict stack iters hlength he hlong).leads
  | @belowList stack iters values count hbelow =>
    rcases streamifyTop_list hcalled with ⟨_, rfl, -⟩ | ⟨streamed, rfl, hlead⟩
    · exact hbelow
    · have hnests := hlead.nests
      cases streamed with
      | failed out => trivial
      | done out => exact hbelow
      | nested next child news out =>
        obtain ⟨hcontainer, rest, rfl, rfl⟩ := hnests
        rw [LeadsDoomed, List.append_nil]
        exact Doomed.under (.belowList values next hbelow) hcontainer
  | @belowDict stack iters members count iter hbelow =>
    rw [streamifyTop, streamifyObject] at hcalled
    split_ifs at hcalled
    · cases hcalled
      exact hbelow
    · cases hcalled
      exact hbelow
    · cases hcalled
      have hnests := streamifyMembers_nests members.length count iter
      cases hstreamed : streamifyMembers members.length count iter with
      | failed out => trivial
      | done out => exact hbelow
      | nested next child news out =>
        rw [hstreamed] at hnests
        obtain ⟨hcontainer, _, rfl, iter, rfl⟩ := hnests
        rw [LeadsDoomed, List.append_assoc]
        exact Doomed.under (.belowDict members next iter hbelow) hcontainer

/-- The loop does not come to its end over a stack that has a long list before it. -/
theorem Doomed.not_true {fuel rounds : ℕ} {stack : List (Value δ × ℕ)}
    {iters : List (List (Bytes × Value δ))} (h : Doomed stack iters) (out : Bytes) :
    streamifyLoop fuel rounds stack iters ≠ .ok (true, out) := by
  induction rounds generalizing stack iters out with
  | zero =>
    intro heq
    cases h <;> cases heq
  | succ rounds ih =>
    cases stack with
    | nil => cases h
    | cons top stack =>
      obtain ⟨value, count⟩ := top
      rw [streamifyLoop_succ]
      cases hcalled : streamifyTop fuel value count iters with
      | error fault =>
        intro heq
        cases heq
      | ok called =>
        have hleads := h.leads hcalled
        obtain ⟨streamed, iters⟩ := called
        cases streamed with
        | failed out =>
          intro heq
          cases heq
        | done out => exact prepend_ne (ih hleads)
        | nested count child news out => exact prepend_ne (ih hleads)

/-- A tree comes back from its text when no count wraps around, and it has no text at all when a
list is too long for its count. -/
theorem parse_streamify {value : Value δ} (hcontainer : value.isContainer)
    (hplain : value.All Plain) :
    (value.All (Shorter (2 ^ 32)) →
      ∃ n text, (∀ fuel ≥ n, streamify fuel value = .ok (true, text)) ∧ parse text = .ok value) ∧
    (ContainsLong value → ∀ fuel text, streamify fuel value ≠ .ok (true, text)) := by
  constructor
  · intro hsize
    obtain ⟨n, hn⟩ := streamify_eq hplain hcontainer hsize
    have hfaithful := faithful value hplain
    have hparse := parse_text blank_nil (text_write _ hfaithful.writable) blank_nil
      (docOf_isContainer hcontainer) hfaithful.readable
    rw [hfaithful.value_eq, List.nil_append, List.append_nil] at hparse
    exact ⟨n, _, hn, hparse⟩
  · intro hlong fuel text
    have hdoomed := (hlong.doomed [] []).2
    rw [List.append_nil] at hdoomed
    exact hdoomed.not_true text

/-- A tree without floating point numbers, with an escaped quote and containers in containers. -/
def sampleTree : Value Empty :=
  .list [.null, .dict [(bytes "k", .int (-5)), (bytes "l", .list [])], .string [97, 92, 34], .bool true]

theorem parse_streamify_sampleTree :
    sampleTree.All Plain ∧ sampleTree.All (Shorter (2 ^ 32)) ∧
      ∃ n text, (∀ fuel ≥ n, streamify fuel sampleTree = .ok (true, text)) ∧
        parse text = .ok sampleTree := by
  have hescaped : AlreadyEscaped [97, 92, 34] :=
    (Escaped.octet (by decide : (97 : UInt8) ≠ 34) (by decide) (.pair 34 .nil)).already
  have hkey (b : UInt8) (hb : b ≠ 34 ∧ b ≠ 92) : AlreadyEscaped [b] :=
    (Escaped.octet hb.1 hb.2 .nil).already
  have hplain : sampleTree.All Plain := by
    refine Value.all_list trivial ?_
    simp only [List.mem_cons, List.not_mem_nil, or_false, forall_eq_or_imp, forall_eq]
    refine ⟨Value.all_word rfl trivial, Value.all_dict ⟨?_, ?_⟩ ?_, Value.all_word rfl hescaped,
      Value.all_word rfl trivial⟩
    · simp only [Value.Sorted, List.pairwise_cons, List.mem_singleton, forall_eq]
      decide
    · simp only [List.mem_cons, List.not_mem_nil, or_false, forall_eq_or_imp, forall_eq]
      exact ⟨hkey 107 (by decide), hkey 108 (by decide)⟩
    · simp only [List.mem_cons, List.not_mem_nil, or_false, forall_eq_or_imp, forall_eq]
      exact ⟨Value.all_word rfl (by norm_num [Plain]), Value.all_list trivial (List.forall_mem_nil _)⟩
  have hsize : sampleTree.All (Shorter (2 ^ 32)) := by
    refine Value.all_list (by norm_num [Shorter]) ?_
    simp only [List.mem_cons, List.not_mem_nil, or_false, forall_eq_or_imp, forall_eq]
    refine ⟨Value.all_word rfl trivial, Value.all_dict (by norm_num [Shorter]) ?_, Value.all_word rfl trivial,
      Value.all_word rfl trivial⟩
    simp only [List.mem_cons, List.not_mem_nil, or_false, forall_eq_or_imp, forall_eq]
    exact ⟨Value.all_word rfl trivial, Value.all_list (by norm_num [Shorter]) (List.forall_mem_nil _)⟩
  exact ⟨hplain, hsize, (parse_streamify rfl hplain).1 hsize⟩

/-- As many times `null` as an `unsigned int` does not count. -/
def longList : Value Empty := .list (List.replicate (2 ^ 32) .null)

theorem streamify_longList :
    longList.All Plain ∧ ¬ ∃ fuel text, streamify fuel longList = .ok (true, text) := by
  constructor
  · refine Value.all_list trivial fun v hv => ?_
    rw [List.eq_of_mem_replicate hv]
    exact Value.all_word rfl trivial
  · rintro ⟨fuel, text, htext⟩
    have hlong : ContainsLong longList :=
      ⟨_, .self longList, by rw [List.length_replicate]⟩
    have hdoomed := (hlong.doomed [] []).2
    rw [List.append_nil] at hdoomed
    exact hdoomed.not_true text htext

end Sese.Json
