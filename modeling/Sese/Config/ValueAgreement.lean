import Sese.Config.ValuePrinting

/-!
# Two printers

`Value::toString` and `Json::streamify` go through a tree in the same rounds: what the one writes
in a round is what the other writes, with white space in between. A tree in which `toString` comes
to its end is therefore one in which `streamify` does, if `null` stands for the blobs. Without the
white space outside of its string literals, its text is the one that `streamify` writes.
-/
namespace Sese.Value

open Foundation
open Json (iterOf Streamed streamifyBasic separator AlreadyEscaped Escaped)

variable {δ : Type}

mutual

/-- The tree with `null` in place of the blobs. -/
def unblob : Value δ → Value δ
  | .null => .null
  | .bool b => .bool b
  | .int i => .int i
  | .double d => .double d
  | .string s => .string s
  | .blob _ => .null
  | .list values => .list (unblobElements values)
  | .dict members => .dict (unblobMembers members)

def unblobElements : List (Value δ) → List (Value δ)
  | [] => []
  | value :: values => unblob value :: unblobElements values

def unblobMembers : List (Bytes × Value δ) → List (Bytes × Value δ)
  | [] => []
  | (key, value) :: members => (key, unblob value) :: unblobMembers members

end

theorem unblobElements_eq (values : List (Value δ)) : unblobElements values = values.map unblob := by
  induction values with
  | nil => rfl
  | cons value values ih => rw [unblobElements, ih, List.map_cons]

theorem unblobMembers_eq (members : List (Bytes × Value δ)) :
    unblobMembers members = members.map fun e => (e.1, unblob e.2) := by
  induction members with
  | nil => rfl
  | cons e members ih => rw [unblobMembers, ih, List.map_cons]

@[simp] theorem isContainer_unblob (value : Value δ) : (unblob value).isContainer = value.isContainer := by
  cases value <;> rfl

@[simp] theorem length_unblobElements (values : List (Value δ)) :
    (unblobElements values).length = values.length := by
  rw [unblobElements_eq, List.length_map]

@[simp] theorem length_unblobMembers (members : List (Bytes × Value δ)) :
    (unblobMembers members).length = members.length := by
  rw [unblobMembers_eq, List.length_map]

theorem iterOf_unblob (value : Value δ) : iterOf (unblob value) = (iterOf value).map unblobMembers := by
  cases value <;> rfl

theorem inside_unblob {w v : Value δ} (h : Inside w v) : Inside (unblob w) (unblob v) := by
  induction h with
  | self => exact .self _
  | element hv _ ih =>
    rw [unblob, unblobElements_eq]
    exact .element (List.mem_map_of_mem hv) ih
  | member he _ ih =>
    rw [unblob, unblobMembers_eq]
    exact .member (List.mem_map_of_mem he) ih

theorem containsLong_unblob {v : Value δ} (h : Json.ContainsLong v) : Json.ContainsLong (unblob v) := by
  obtain ⟨values, hinside, hlength⟩ := h
  exact ⟨unblobElements values, inside_unblob hinside, by rwa [length_unblobElements]⟩

theorem unblob_eq_self {v : Value δ} (h : v.All fun w => ∀ s, w ≠ .blob s) : unblob v = v := by
  induction v using Value.tree_induction with
  | blob s => exact absurd rfl (h.self s)
  | list values ih =>
    rw [unblob, unblobElements_eq, List.map_congr_left fun v hv => ih v hv (h.element hv), List.map_id']
  | dict members ih =>
    have hsame : ∀ e ∈ members, (e.1, unblob e.2) = e := fun e he =>
      Prod.ext rfl (ih e he (h.member he))
    rw [unblob, unblobMembers_eq, List.map_congr_left hsame, List.map_id']
  | _ => rfl

/-- A relation of two texts that holds of the pieces that the two printers write and is kept when
they are put together. -/
structure Compatible (Q : Bytes → Bytes → Prop) : Prop where
  nil : Q [] []
  append {a a' b b' : Bytes} : Q a a' → Q b b' → Q (a ++ b) (a' ++ b')
  blank {b : UInt8} : b = 32 ∨ b = 10 → Q [b] []
  mark {b : UInt8} : b = 44 ∨ b = 91 ∨ b = 93 ∨ b = 123 ∨ b = 125 → Q [b] [b]

variable {Q : Bytes → Bytes → Prop}

theorem Compatible.spaces (hQ : Compatible Q) (n : ℕ) : Q (List.replicate n 32) [] := by
  induction n with
  | zero => exact hQ.nil
  | succ n ih => exact hQ.append (hQ.blank (.inl rfl)) ih

theorem Compatible.writeSpace (hQ : Compatible Q) (count : ℕ) : Q (writeSpace count) [] :=
  hQ.append (hQ.spaces _) (hQ.spaces _)

theorem Compatible.lead (hQ : Compatible Q) {opening : UInt8} (h : opening = 91 ∨ opening = 123)
    (count size : ℕ) (level : UInt32) :
    Q (lead opening count size level) (separator opening count size) := by
  have hline : Q [10] [] := hQ.blank (.inr rfl)
  have hspace := hQ.writeSpace (level * 2).toNat
  have hopening : Q [opening] [opening] := hQ.mark (by tauto)
  have hcomma : Q [44] [44] := hQ.mark (.inl rfl)
  rw [Value.lead, separator]
  by_cases hzero : count = 0
  · rw [if_pos hzero, if_neg (by omega), if_pos hzero]
    have hfirst := hQ.append (hQ.append hopening hline) hspace
    rwa [List.append_nil, List.append_nil] at hfirst
  · rw [if_neg hzero, if_neg hzero]
    by_cases hlt : count < size
    · rw [if_pos ⟨Nat.pos_of_ne_zero hzero, hlt⟩, if_pos hlt]
      have hnext := hQ.append (hQ.append hcomma hline) hspace
      rwa [List.append_nil, List.append_nil] at hnext
    · rw [if_neg fun h => hlt h.2, if_neg hlt]
      exact hspace

theorem Compatible.trail (hQ : Compatible Q) {closing : UInt8} (h : closing = 93 ∨ closing = 125)
    (count size : ℕ) (level : UInt32) :
    Q (trail closing count size level) (if count = size then [closing] else []) := by
  rw [Value.trail]
  split_ifs
  · exact hQ.append (hQ.blank (.inr rfl)) (hQ.append (hQ.writeSpace _) (hQ.mark (by tauto)))
  · exact hQ.nil

theorem getElem?_unblobElements (values : List (Value δ)) (count : ℕ) :
    (unblobElements values)[count]? = values[count]?.map unblob := by
  rw [unblobElements_eq, List.getElem?_map]

/-- The count has come to the size only where the iterator is at its end. -/
theorem iter_eq_nil {members iter : List (Bytes × Value δ)} {done : ℕ}
    (hlength : members.length = done + iter.length) (hlast : done % 2 ^ 32 = members.length) :
    iter = [] := by
  have hle := Nat.mod_le done (2 ^ 32)
  exact List.eq_nil_of_length_eq_zero (by omega)

variable [Double δ]

variable (Q) in
/-- What the value itself and the keys of its members are written as. -/
def Related : Value δ → Prop
  | .list _ => True
  | .dict members => ∀ e ∈ members, Q (34 :: (e.1 ++ [34, 58, 32])) (34 :: (e.1 ++ [34, 58]))
  | value => ∃ text, streamifyBasic (unblob value) = some text ∧ Q value.toStringBasic text

theorem Related.word {value : Value δ} (h : Related Q value) (hword : value.isContainer = false) :
    ∃ text, streamifyBasic (unblob value) = some text ∧ Q value.toStringBasic text := by
  cases value with
  | list _ => cases hword
  | dict _ => cases hword
  | _ => exact h

variable (Q) in
def Ready (iter : List (Bytes × Value δ)) : Prop :=
  ∀ e ∈ iter, Q (34 :: (e.1 ++ [34, 58, 32])) (34 :: (e.1 ++ [34, 58])) ∧ e.2.All (Related Q)

variable (Q) in
/-- The stacks of `toString`: the count of a dictionary says how many of its members the iterator
has behind it. -/
inductive Standing : List (Value δ × ℕ × UInt32) → List (List (Bytes × Value δ)) → Prop
  | nil : Standing [] []
  | list {values : List (Value δ)} {stack : List (Value δ × ℕ × UInt32)}
    {iters : List (List (Bytes × Value δ))} (count : ℕ) (level : UInt32) :
    (∀ v ∈ values, v.All (Related Q)) → Standing stack iters →
    Standing ((.list values, count, level) :: stack) iters
  | dict {members iter : List (Bytes × Value δ)} {stack : List (Value δ × ℕ × UInt32)}
    {iters : List (List (Bytes × Value δ))} (done : ℕ) (level : UInt32) : Ready Q iter →
    members.length = done + iter.length → Standing stack iters →
    Standing ((.dict members, done % 2 ^ 32, level) :: stack) (iter :: iters)

theorem Standing.push {stack : List (Value δ × ℕ × UInt32)} {iters : List (List (Bytes × Value δ))}
    (h : Standing Q stack iters) {child : Value δ} (hcontainer : child.isContainer)
    (hall : child.All (Related Q)) (level : UInt32) :
    Standing Q ((child, 0, level) :: stack) (iterOf child ++ iters) := by
  cases child with
  | list values => exact .list 0 level (fun v hv => hall.element hv) h
  | dict members =>
    exact .dict 0 level (fun e he => ⟨hall.self e he, hall.member he⟩) (Nat.zero_add _).symm h
  | _ => cases hcontainer

variable (Q) in
/-- Two calls that lead to the same; the first is for the value, at the level. -/
inductive Follows (value : Value δ) (level : UInt32) : Printed δ → Streamed δ → Prop
  | done {out out' : Bytes} : Q out out' → Follows value level (.done out) (.done out')
  | nested {count : ℕ} {child : Value δ} {own : List (List (Bytes × Value δ))} {out out' : Bytes} :
    child.isContainer → child.All (Related Q) → Q out out' →
    (∀ stack iters, Standing Q stack iters →
      Standing Q ((value, count, level) :: stack) (own ++ iters)) →
    Follows value level (.nested count child (iterOf child ++ own) out)
      (.nested count (unblob child) (iterOf (unblob child) ++ own.map unblobMembers) out')

theorem Follows.after (hQ : Compatible Q) {value : Value δ} {level : UInt32} {printed : Printed δ}
    {streamed : Streamed δ} (h : Follows Q value level printed streamed) {front front' : Bytes}
    (hfront : Q front front') : Follows Q value level (printed.after front) (streamed.after front') := by
  cases h with
  | done hout => exact .done (hQ.append hfront hout)
  | nested hcontainer hall hout hown => exact .nested hcontainer hall (hQ.append hfront hout) hown

theorem toStringElements_end {values : List (Value δ)} {level : UInt32} {f : ℕ} {rest : Printed δ}
    (h : toStringElements values level f values.length = .ok rest) : rest = .done [] := by
  cases f with
  | zero => cases h
  | succ f =>
    rw [toStringElements, List.getElem?_eq_none (le_refl _)] at h
    cases h
    rfl

theorem follows_elements (hQ : Compatible Q) {values : List (Value δ)}
    (hvalues : ∀ v ∈ values, v.All (Related Q)) (level : UInt32) {f count : ℕ} {printed : Printed δ}
    (h : toStringElements values level f count = .ok printed) :
    ∃ streamed, Json.streamifyElements (unblobElements values) f count = .ok streamed ∧
      Follows Q (.list values) level printed streamed := by
  induction f generalizing count printed with
  | zero => cases h
  | succ f ih =>
    have hlead := hQ.lead (.inl rfl) count values.length level
    cases hget : values[count]? with
    | none =>
      have hget' : (unblobElements values)[count]? = none := by
        rw [getElem?_unblobElements, hget]
        rfl
      rw [toStringElements, hget] at h
      rw [Json.streamifyElements, hget']
      cases h
      exact ⟨_, rfl, .done hQ.nil⟩
    | some v =>
      have hv := hvalues v (List.mem_of_getElem? hget)
      have hget' : (unblobElements values)[count]? = some (unblob v) := by
        rw [getElem?_unblobElements, hget]
        rfl
      by_cases hcontainer : v.isContainer
      · rw [toStringElements_container hget hcontainer] at h
        rw [Json.streamifyElements_container hget' (by rwa [isContainer_unblob]),
          length_unblobElements]
        cases h
        refine ⟨_, rfl, ?_⟩
        have hstanding (stack : List (Value δ × ℕ × UInt32)) (iters : List (List (Bytes × Value δ)))
            (hstack : Standing Q stack iters) :
            Standing Q ((.list values, (count + 1) % 2 ^ 32, level) :: stack) ([] ++ iters) :=
          .list ((count + 1) % 2 ^ 32) level hvalues hstack
        have hnested := Follows.nested hcontainer hv hlead hstanding
        rwa [List.map_nil, List.append_nil, List.append_nil] at hnested
      · have hword : v.isContainer = false := by simpa using hcontainer
        obtain ⟨text, htext, hbasic⟩ := hv.self.word hword
        rw [toStringElements_word hget hword] at h
        rw [Json.streamifyElements_word hget' (by rwa [isContainer_unblob]) htext,
          length_unblobElements]
        cases hrest : toStringElements values level f ((count + 1) % 2 ^ 32) with
        | error fault =>
          rw [hrest] at h
          cases h
        | ok rest =>
          rw [hrest] at h
          cases h
          have htrail := hQ.trail (.inl rfl) ((count + 1) % 2 ^ 32) values.length level
          have hout := hQ.append hlead (hQ.append hbasic htrail)
          split_ifs at hout ⊢ with hlast
          · rw [hlast] at hrest
            rw [toStringElements_end hrest, Printed.after, List.append_nil]
            exact ⟨_, rfl, .done hout⟩
          · obtain ⟨streamed, hstreamed, hfollows⟩ := ih hrest
            rw [hstreamed]
            rw [List.append_nil] at hout
            exact ⟨_, rfl, hfollows.after hQ hout⟩

theorem follows_list (hQ : Compatible Q) {values : List (Value δ)}
    (hvalues : ∀ v ∈ values, v.All (Related Q)) (level : UInt32) {fuel count : ℕ}
    {printed : Printed δ} (h : toStringList fuel values count level = .ok printed) :
    ∃ streamed, Json.streamifyArray fuel (unblobElements values) count = .ok streamed ∧
      Follows Q (.list values) level printed streamed := by
  rw [toStringList] at h
  rw [Json.streamifyArray]
  by_cases hnil : values = []
  · rw [if_pos hnil] at h
    subst hnil
    cases h
    exact ⟨_, rfl, .done (hQ.append (hQ.mark (.inr (.inl rfl))) (hQ.mark (.inr (.inr (.inl rfl)))))⟩
  · have hnil' : unblobElements values ≠ [] := by
      rw [unblobElements_eq]
      simpa using hnil
    rw [if_neg hnil] at h
    rw [if_neg hnil', length_unblobElements]
    cases helements : toStringElements values level fuel count with
    | error fault =>
      rw [helements] at h
      cases h
    | ok rest =>
      rw [helements] at h
      cases h
      have htrail := hQ.trail (.inl rfl) count values.length level
      split_ifs at htrail ⊢ with hcount
      · rw [hcount] at helements
        rw [toStringElements_end helements, Printed.after, List.append_nil]
        exact ⟨_, rfl, .done htrail⟩
      · obtain ⟨streamed, hstreamed, hfollows⟩ := follows_elements hQ hvalues level helements
        refine ⟨streamed, hstreamed, ?_⟩
        have hafter := hfollows.after hQ htrail
        cases streamed <;> exact hafter

theorem follows_members (hQ : Compatible Q) {members iter : List (Bytes × Value δ)}
    (hready : Ready Q iter) (level : UInt32) {done : ℕ}
    (hlength : members.length = done + iter.length) :
    Follows Q (.dict members) level (toStringMembers members.length level (done % 2 ^ 32) iter)
      (Json.streamifyMembers members.length (done % 2 ^ 32) (unblobMembers iter)) := by
  induction iter generalizing done with
  | nil => exact .done hQ.nil
  | cons e iter ih =>
    obtain ⟨name, value⟩ := e
    obtain ⟨⟨hname, hvalue⟩, hiter⟩ := List.forall_mem_cons.mp hready
    have hnext : (done % 2 ^ 32 + 1) % 2 ^ 32 = (done + 1) % 2 ^ 32 := Nat.mod_add_mod done _ 1
    have hlength' : members.length = done + 1 + iter.length := by
      rw [hlength, List.length_cons]
      omega
    have hfront := hQ.append (hQ.lead (.inr rfl) (done % 2 ^ 32) members.length level) hname
    rw [unblobMembers]
    by_cases hcontainer : value.isContainer
    · rw [toStringMembers_container hcontainer,
        Json.streamifyMembers_container (by rwa [isContainer_unblob]), hnext]
      exact .nested hcontainer hvalue hfront fun stack iters hstack =>
        .dict (done + 1) level hiter hlength' hstack
    · have hword : value.isContainer = false := by simpa using hcontainer
      obtain ⟨text, htext, hbasic⟩ := hvalue.self.word hword
      have htrail := hQ.trail (.inr rfl) ((done + 1) % 2 ^ 32) members.length level
      have hout := hQ.append hfront (hQ.append hbasic htrail)
      rw [toStringMembers_word hword,
        Json.streamifyMembers_word (by rwa [isContainer_unblob]) htext, hnext]
      split_ifs at hout ⊢ with hlast
      · rw [iter_eq_nil hlength' hlast, toStringMembers, Printed.after, List.append_nil]
        exact .done hout
      · rw [List.append_nil] at hout
        exact (ih hiter hlength').after hQ hout

theorem follows_dict (hQ : Compatible Q) {members iter : List (Bytes × Value δ)}
    (hready : Ready Q iter) (level : UInt32) {done : ℕ}
    (hlength : members.length = done + iter.length) :
    Follows Q (.dict members) level (toStringDict members (done % 2 ^ 32) level iter)
      (Json.streamifyObject (unblobMembers members) (done % 2 ^ 32) (unblobMembers iter)) := by
  rw [toStringDict, Json.streamifyObject]
  by_cases hnil : members = []
  · subst hnil
    exact .done (hQ.append (hQ.mark (by tauto)) (hQ.mark (by tauto)))
  · have hnil' : unblobMembers members ≠ [] := by
      rw [unblobMembers_eq]
      simpa using hnil
    rw [if_neg hnil, if_neg hnil', length_unblobMembers]
    have htrail := hQ.trail (.inr rfl) (done % 2 ^ 32) members.length level
    split_ifs at htrail ⊢ with hcount
    · rw [iter_eq_nil hlength hcount, toStringMembers, Printed.after, List.append_nil]
      exact .done htrail
    · have hafter := (follows_members hQ hready level hlength).after hQ htrail
      cases hstreamed : Json.streamifyMembers members.length (done % 2 ^ 32) (unblobMembers iter) <;>
        rw [hstreamed] at hafter <;> exact hafter

/-- The stack of `streamify`. -/
def stackOf (stack : List (Value δ × ℕ × UInt32)) : List (Value δ × ℕ) :=
  stack.map fun entry => (unblob entry.1, entry.2.1)

/-- Where `toString` comes to its end, `streamify` does. -/
theorem streamifyLoop_of_toStringLoop (hQ : Compatible Q) {fuel rounds : ℕ}
    {stack : List (Value δ × ℕ × UInt32)} {iters : List (List (Bytes × Value δ))} {text : Bytes}
    (hstack : Standing Q stack iters) (h : toStringLoop fuel rounds stack iters = .ok text) :
    ∃ text', Json.streamifyLoop fuel rounds (stackOf stack) (iters.map unblobMembers) =
        .ok (true, text') ∧ Q text text' := by
  induction rounds generalizing stack iters text with
  | zero =>
    cases hstack with
    | nil =>
      cases h
      exact ⟨[], rfl, hQ.nil⟩
    | list _ _ _ _ => cases h
    | dict _ _ _ _ _ => cases h
  | succ rounds ih =>
    have hround {value : Value δ} {count : ℕ} {level : UInt32} {stack : List (Value δ × ℕ × UInt32)}
        {iters : List (List (Bytes × Value δ))} {printed : Printed δ} {streamed : Streamed δ}
        (hstack : Standing Q stack iters) (hfollows : Follows Q value level printed streamed)
        (h : resume fuel rounds (value, count, level) stack (printed, iters) = .ok text) :
        ∃ text', Json.resume fuel rounds (unblob value) (stackOf stack)
          (streamed, iters.map unblobMembers) = .ok (true, text') ∧ Q text text' := by
      cases hfollows with
      | done hout =>
        obtain ⟨rest, hrest, rfl⟩ := prepend_eq_ok.mp h
        obtain ⟨rest', hrest', hQrest⟩ := ih hstack hrest
        rw [Json.resume, hrest']
        exact ⟨_, rfl, hQ.append hout hQrest⟩
      | nested hcontainer hall hout hown =>
        obtain ⟨rest, hrest, rfl⟩ := prepend_eq_ok.mp h
        rw [List.append_assoc] at hrest
        obtain ⟨rest', hrest', hQrest⟩ :=
          ih ((hown stack iters hstack).push hcontainer hall (level + 1)) hrest
        rw [Json.resume, List.append_assoc, ← List.map_append, iterOf_unblob, ← List.map_append]
        rw [stackOf, List.map_cons, List.map_cons] at hrest'
        rw [stackOf, hrest']
        exact ⟨_, rfl, hQ.append hout hQrest⟩
    cases hstack with
    | nil =>
      cases h
      exact ⟨[], rfl, hQ.nil⟩
    | @list values _ _ count level hvalues hbelow =>
      rw [toStringLoop_succ, toStringTop] at h
      obtain ⟨⟨printed, iters'⟩, htop, hresume⟩ := bind_eq_ok.mp h
      cases hlist : toStringList fuel values count level with
      | error fault =>
        rw [hlist] at htop
        cases htop
      | ok p =>
        rw [hlist] at htop
        cases htop
        obtain ⟨streamed, hstreamed, hfollows⟩ := follows_list hQ hvalues level hlist
        rw [stackOf, List.map_cons, Json.streamifyLoop_succ, unblob, Json.streamifyTop, hstreamed]
        exact hround hbelow hfollows hresume
    | dict done level hready hlength hbelow =>
      rw [toStringLoop_succ, toStringTop, ok_bind] at h
      rw [stackOf, List.map_cons, Json.streamifyLoop_succ, unblob, List.map_cons, Json.streamifyTop]
      exact hround hbelow (follows_dict hQ hready level hlength) h

theorem streamify_of_toString (hQ : Compatible Q) {value : Value δ} (hcontainer : value.isContainer)
    (hall : value.All (Related Q)) {fuel : ℕ} {text : Bytes} (h : toString fuel value = .ok text) :
    ∃ text', Json.streamify fuel (unblob value) = .ok (true, text') ∧ Q text text' := by
  have hstanding := Standing.nil.push hcontainer hall 1
  rw [List.append_nil] at hstanding
  rw [toString_eq] at h
  obtain ⟨text', htext', hQtext⟩ := streamifyLoop_of_toStringLoop hQ hstanding h
  refine ⟨text', ?_, hQtext⟩
  rw [Json.streamify, iterOf_unblob]
  exact htext'

theorem compatible_true : Compatible fun _ _ => True :=
  ⟨trivial, fun _ _ => trivial, fun _ => trivial, fun _ => trivial⟩

theorem related_true (value : Value δ) : Related (fun _ _ => True) value := by
  cases value with
  | list _ => trivial
  | dict _ => exact fun _ _ => trivial
  | _ => exact ⟨_, rfl, trivial⟩

/-- The loop ends for the lists and dictionaries in which no list has more elements than an
`unsigned int` counts. -/
theorem toString_ends_iff (value : Value δ) :
    (∃ n text, ∀ fuel ≥ n, toString fuel value = .ok text) ↔
      value.isContainer ∧ ¬ Json.ContainsLong value := by
  constructor
  · rintro ⟨n, text, hn⟩
    have hprinted := hn n (le_refl n)
    have hcontainer : value.isContainer := by
      by_contra hword
      rw [toString_eq] at hprinted
      exact toStringLoop_word (by simpa using hword) _ _ _ _ _ _ _ hprinted
    refine ⟨hcontainer, fun hlong => ?_⟩
    obtain ⟨text', htext', -⟩ := streamify_of_toString compatible_true hcontainer
      (fun w _ => related_true w) hprinted
    have hdoomed := ((containsLong_unblob hlong).doomed [] []).2
    rw [List.append_nil] at hdoomed
    exact hdoomed.not_true text' htext'
  · rintro ⟨hcontainer, hshort⟩
    exact toString_of_prints (prints hshort hcontainer)

/-- `null` is written over and over. -/
theorem null_toString_endless :
    ¬ ∀ value : Value Empty, ∃ n text, ∀ fuel ≥ n, toString fuel value = .ok text := by
  intro h
  obtain ⟨n, text, hn⟩ := h .null
  have hprinted := hn n (le_refl n)
  rw [toString_eq] at hprinted
  exact toStringLoop_word rfl _ _ _ _ _ _ _ hprinted

def isWhite (b : UInt8) : Bool := b = 32 ∨ 9 ≤ b ∧ b ≤ 13

/-- Where a text stands: outside of a string literal, inside of one, or behind a backslash in one. -/
inductive Place
  | outside
  | literal
  | escaped

/-- The text without the white space outside of string literals. -/
def squeeze : Place → Bytes → Bytes
  | _, [] => []
  | .outside, b :: text =>
    if b = 34 then b :: squeeze .literal text
    else if isWhite b then squeeze .outside text
    else b :: squeeze .outside text
  | .literal, b :: text =>
    b :: squeeze (if b = 34 then .outside else if b = 92 then .escaped else .literal) text
  | .escaped, b :: text => b :: squeeze .literal text

theorem squeeze_outside (b : UInt8) (text : Bytes) :
    squeeze .outside (b :: text) =
      if b = 34 then b :: squeeze .literal text
      else if isWhite b then squeeze .outside text
      else b :: squeeze .outside text := rfl

theorem squeeze_literal (b : UInt8) (text : Bytes) :
    squeeze .literal (b :: text) =
      b :: squeeze (if b = 34 then .outside else if b = 92 then .escaped else .literal) text := rfl

/-- A text in front of another one, where both start outside of a literal. -/
def SqueezesTo (text text' : Bytes) : Prop :=
  ∀ rest, squeeze .outside (text ++ rest) = text' ++ squeeze .outside rest

theorem SqueezesTo.eq {text text' : Bytes} (h : SqueezesTo text text') : squeeze .outside text = text' := by
  have hall := h []
  rwa [List.append_nil, show squeeze .outside [] = [] from rfl, List.append_nil] at hall

theorem squeezesTo_cons {b : UInt8} {text text' : Bytes} (hquote : b ≠ 34) (hwhite : isWhite b = false)
    (h : SqueezesTo text text') : SqueezesTo (b :: text) (b :: text') := by
  intro rest
  rw [List.cons_append, squeeze_outside, if_neg hquote, if_neg (by simp [hwhite]), h rest,
    List.cons_append]

theorem compatible_squeezesTo : Compatible SqueezesTo where
  nil _ := rfl
  append h h' rest := by rw [List.append_assoc, h, h', List.append_assoc]
  blank := by rintro b (rfl | rfl) rest <;> rfl
  mark := by rintro b (rfl | rfl | rfl | rfl | rfl) rest <;> rfl

theorem squeezesTo_self {text : Bytes} (h : ∀ b ∈ text, b ≠ 34 ∧ isWhite b = false) :
    SqueezesTo text text := by
  induction text with
  | nil => exact compatible_squeezesTo.nil
  | cons b text ih =>
    obtain ⟨⟨hquote, hwhite⟩, htext⟩ := List.forall_mem_cons.mp h
    exact squeezesTo_cons hquote hwhite (ih htext)

theorem squeeze_escaped {raw : Bytes} (h : Escaped raw) (rest : Bytes) :
    squeeze .literal (raw ++ 34 :: rest) = raw ++ 34 :: squeeze .outside rest := by
  induction h with
  | nil => rfl
  | octet hquote hslash _ ih =>
    rw [List.cons_append, squeeze_literal, if_neg hquote, if_neg hslash, ih, List.cons_append]
  | pair b _ ih =>
    rw [List.cons_append, List.cons_append, squeeze_literal, if_neg (by decide), if_pos rfl]
    exact congrArg (fun text => 92 :: b :: text) ih

theorem squeezesTo_literal {raw : Bytes} (h : Escaped raw) {text text' : Bytes}
    (htext : SqueezesTo text text') :
    SqueezesTo (34 :: (raw ++ 34 :: text)) (34 :: (raw ++ 34 :: text')) := by
  intro rest
  rw [List.cons_append, squeeze_outside, if_pos rfl, List.append_assoc, List.cons_append, squeeze_escaped h,
    htext rest, List.cons_append, List.append_assoc, List.cons_append]

/-- There are no blobs, and the strings and the keys are escaped. -/
def Jsonable : Value δ → Prop
  | .string s => AlreadyEscaped s
  | .blob _ => False
  | .dict members => ∀ e ∈ members, AlreadyEscaped e.1
  | _ => True

theorem squeezesTo_signedDecimal (i : ℤ) : SqueezesTo (signedDecimal i) (signedDecimal i) := by
  apply squeezesTo_self
  intro b hb
  rcases (Json.signed_signedDecimal i).2 b hb with rfl | hdigit
  · decide
  · have hrange : 48 ≤ b.toNat ∧ b.toNat ≤ 57 := by simpa [isdigit] using hdigit
    constructor
    · rintro rfl
      simp at hrange
    · simp only [isWhite, decide_eq_false_iff_not, ← UInt8.toNat_inj, UInt8.le_iff_toNat_le]
      simp only [UInt8.reduceToNat]
      omega

theorem related_squeezesTo (hdouble : ∀ d : δ, ∀ b ∈ Double.to_string d, b ≠ 34 ∧ isWhite b = false)
    {value : Value δ} (h : Jsonable value) : Related SqueezesTo value := by
  cases value with
  | null =>
    have hnull : ∀ b ∈ bytes "null", b ≠ 34 ∧ isWhite b = false := by decide
    exact ⟨_, rfl, squeezesTo_self hnull⟩
  | bool b =>
    have hbool : ∀ c : Bool, ∀ b ∈ (if c then bytes "true" else bytes "false"),
        b ≠ 34 ∧ isWhite b = false := by
      decide
    exact ⟨_, rfl, squeezesTo_self (hbool b)⟩
  | int i => exact ⟨_, rfl, squeezesTo_signedDecimal i⟩
  | double d => exact ⟨_, rfl, squeezesTo_self (hdouble d)⟩
  | string s =>
    exact ⟨_, rfl, squeezesTo_literal h.escaped compatible_squeezesTo.nil⟩
  | blob s => exact h.elim
  | list values => trivial
  | dict members =>
    intro e he
    have hcolon : SqueezesTo [58, 32] [58] := fun rest => rfl
    have hkey := squeezesTo_literal (h e he).escaped hcolon
    exact hkey

/-- Both printers come to their ends, with texts that are the same but for white space, unless a
list is too long for its count. -/
theorem pretty_compact_iff {value : Value δ}
    (hdouble : ∀ d : δ, ∀ b ∈ Double.to_string d, b ≠ 34 ∧ isWhite b = false)
    (hcontainer : value.isContainer) (hjson : value.All Jsonable) :
    (∃ n text, ∀ fuel ≥ n, toString fuel value = .ok text ∧
      Json.streamify fuel value = .ok (true, squeeze .outside text)) ↔ ¬ Json.ContainsLong value := by
  constructor
  · rintro ⟨n, text, hn⟩
    exact ((toString_ends_iff value).mp ⟨n, text, fun fuel hfuel => (hn fuel hfuel).1⟩).2
  · intro hshort
    obtain ⟨n, text, hn⟩ := toString_of_prints (prints hshort hcontainer)
    have hunblob : unblob value = value := by
      refine unblob_eq_self fun w hw s hblob => ?_
      have hjsonable := hjson w hw
      rw [hblob] at hjsonable
      exact hjsonable
    refine ⟨n, text, fun fuel hfuel => ⟨hn fuel hfuel, ?_⟩⟩
    obtain ⟨text', htext', hsqueeze⟩ := streamify_of_toString compatible_squeezesTo hcontainer
      (fun w hw => related_squeezesTo hdouble (hjson w hw)) (hn fuel hfuel)
    rw [hunblob] at htext'
    rw [hsqueeze.eq, htext']

inductive Half
  | half

instance : Double Half where
  stod text := if text = bytes "0.500000" then .ok .half else .error .terminate
  to_string _ := bytes "0.500000"

/-- A number and an escaped quote in a list, and an empty dictionary. -/
def sampleTree : Value Half :=
  .dict [(bytes "k", .list [.double .half, .string [97, 92, 34], .null]), (bytes "l", .dict [])]

theorem pretty_compact_sampleTree :
    ∃ n text, ∀ fuel ≥ n, toString fuel sampleTree = .ok text ∧
      Json.streamify fuel sampleTree = .ok (true, squeeze .outside text) := by
  have hkey (b : UInt8) (hb : b ≠ 34 ∧ b ≠ 92) : AlreadyEscaped [b] :=
    (Escaped.octet hb.1 hb.2 .nil).already
  have hescaped : AlreadyEscaped [97, 92, 34] :=
    (Escaped.octet (by decide : (97 : UInt8) ≠ 34) (by decide) (.pair 34 .nil)).already
  have hjson : sampleTree.All Jsonable := by
    refine all_dict ?_ ?_
    · simp only [Jsonable, List.mem_cons, List.not_mem_nil, or_false, forall_eq_or_imp, forall_eq]
      exact ⟨hkey 107 (by decide), hkey 108 (by decide)⟩
    · simp only [List.mem_cons, List.not_mem_nil, or_false, forall_eq_or_imp, forall_eq]
      refine ⟨all_list trivial ?_, all_dict (List.forall_mem_nil _) (List.forall_mem_nil _)⟩
      simp only [List.mem_cons, List.not_mem_nil, or_false, forall_eq_or_imp, forall_eq]
      exact ⟨all_word rfl trivial, all_word rfl hescaped, all_word rfl trivial⟩
  have hhalf : ∀ d : Half, ∀ b ∈ Double.to_string d, b ≠ 34 ∧ isWhite b = false := by
    rintro ⟨⟩
    decide
  have hshort : sampleTree.All fun w => ∀ values, w = .list values → values.length < 2 ^ 32 := by
    have hword {w : Value Half} (h : w.isContainer = false) :
        w.All fun w => ∀ values, w = .list values → values.length < 2 ^ 32 := by
      refine all_word h ?_
      rintro values rfl
      cases h
    refine all_dict (by rintro _ ⟨⟩) ?_
    simp only [List.mem_cons, List.not_mem_nil, or_false, forall_eq_or_imp, forall_eq]
    refine ⟨all_list (by rintro _ ⟨⟩; norm_num) ?_,
      all_dict (by rintro _ ⟨⟩) (List.forall_mem_nil _)⟩
    simp only [List.mem_cons, List.not_mem_nil, or_false, forall_eq_or_imp, forall_eq]
    exact ⟨hword rfl, hword rfl, hword rfl⟩
  refine (pretty_compact_iff hhalf rfl hjson).mpr ?_
  rintro ⟨values, hinside, hlong⟩
  exact (hshort _ hinside values rfl).not_ge hlong

/-- A list with as many elements as an `unsigned int` does not count. -/
theorem longList_not_pretty :
    Json.longList.isContainer ∧ Json.longList.All Jsonable ∧
      ¬ ∃ n text, ∀ fuel ≥ n, toString fuel Json.longList = .ok text ∧
        Json.streamify fuel Json.longList = .ok (true, squeeze .outside text) := by
  refine ⟨rfl, all_list trivial fun v hv => ?_, ?_⟩
  · rw [List.eq_of_mem_replicate hv]
    exact all_word rfl trivial
  · rintro ⟨n, text, hn⟩
    exact Json.streamify_longList.2 ⟨n, _, (hn n (le_refl n)).2⟩

end Sese.Value
