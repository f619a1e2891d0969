import Sese.Config.JsonDocument

/-!
# Writing and reading a tree

The text that `streamify` writes, and what `parse` makes of it.
-/
namespace Sese.Json

open Foundation

mutual

def Doc.write : Doc → Bytes
  | .null => bytes "null"
  | .bool b => if b then bytes "true" else bytes "false"
  | .number text => text
  | .string raw => quoted raw
  | .array [] => [91, 93]
  | .array (doc :: docs) => 91 :: (doc.write ++ writeElements docs)
  | .object [] => [123, 125]
  | .object ((raw, doc) :: members) =>
    123 :: (quoted raw ++ 58 :: (doc.write ++ writeMembers members))

/-- The elements that follow another one, and the end of the array. -/
def writeElements : List Doc → Bytes
  | [] => [93]
  | doc :: docs => 44 :: (doc.write ++ writeElements docs)

/-- The members that follow another one, and the end of the object. -/
def writeMembers : List (Bytes × Doc) → Bytes
  | [] => [125]
  | (raw, doc) :: members => 44 :: (quoted raw ++ 58 :: (doc.write ++ writeMembers members))

end

mutual

/-- The numbers are words, and the strings and keys are escaped. -/
def Doc.Writable : Doc → Prop
  | .number text => Word text
  | .string raw => Escaped raw
  | .array docs => ElementsWritable docs
  | .object members => MembersWritable members
  | _ => True

def ElementsWritable : List Doc → Prop
  | [] => True
  | doc :: docs => doc.Writable ∧ ElementsWritable docs

def MembersWritable : List (Bytes × Doc) → Prop
  | [] => True
  | (raw, doc) :: members => Escaped raw ∧ doc.Writable ∧ MembersWritable members

end

mutual

theorem text_write (doc : Doc) (h : doc.Writable) : Text doc doc.write := by
  match doc with
  | .null => exact .null
  | .bool b => exact .bool b
  | .number text => exact .number h
  | .string raw => exact .string h
  | .array [] => exact .emptyArray blank_nil
  | .array (doc :: docs) =>
    obtain ⟨text, htext, heq⟩ := elements_write (doc :: docs) (List.cons_ne_nil doc docs) h
    rw [Doc.write, ← (List.cons_eq_cons.mp heq).2]
    exact .array htext
  | .object [] => exact .emptyObject blank_nil
  | .object ((raw, doc) :: members) =>
    obtain ⟨text, htext, heq⟩ :=
      members_write ((raw, doc) :: members) (List.cons_ne_nil (raw, doc) members) h
    rw [Doc.write, ← (List.cons_eq_cons.mp heq).2]
    exact .object htext
termination_by sizeOf doc

theorem elements_write (docs : List Doc) (hne : docs ≠ []) (h : ElementsWritable docs) :
    ∃ text, Elements docs text ∧ 44 :: (text ++ [93]) = writeElements docs := by
  match docs with
  | [] => exact absurd rfl hne
  | [doc] =>
    refine ⟨_, .last blank_nil (text_write doc h.1) blank_nil, ?_⟩
    rw [List.nil_append, List.append_nil, writeElements, writeElements]
  | doc :: next :: docs =>
    obtain ⟨text, htext, heq⟩ := elements_write (next :: docs) (List.cons_ne_nil next docs) h.2
    refine ⟨_, .cons blank_nil (text_write doc h.1) blank_nil htext, ?_⟩
    rw [writeElements, ← heq]
    simp
termination_by sizeOf docs

theorem members_write (members : List (Bytes × Doc)) (hne : members ≠ [])
    (h : MembersWritable members) :
    ∃ text, Members members text ∧ 44 :: (text ++ [125]) = writeMembers members := by
  match members with
  | [] => exact absurd rfl hne
  | [(raw, doc)] =>
    obtain ⟨hraw, hdoc, -⟩ := h
    refine ⟨_, .last blank_nil hraw blank_nil blank_nil (text_write doc hdoc) blank_nil, ?_⟩
    simp [writeMembers, quoted]
  | (raw, doc) :: next :: members =>
    obtain ⟨hraw, hdoc, hrest⟩ := h
    obtain ⟨text, htext, heq⟩ := members_write (next :: members) (List.cons_ne_nil next members) hrest
    refine ⟨_, .cons blank_nil hraw blank_nil blank_nil (text_write doc hdoc) blank_nil htext, ?_⟩
    rw [writeMembers, ← heq]
    simp [quoted]
termination_by sizeOf members

end

variable {δ : Type}

mutual

/-- The document that a tree is written as. Nothing stands for floating point numbers and blobs. -/
def docOf : Value δ → Doc
  | .null => .null
  | .bool b => .bool b
  | .int i => .number (signedDecimal i)
  | .double _ => .null
  | .string s => .string s
  | .blob _ => .null
  | .list values => .array (docsOf values)
  | .dict members => .object (membersOf members)

def docsOf : List (Value δ) → List Doc
  | [] => []
  | value :: values => docOf value :: docsOf values

def membersOf : List (Bytes × Value δ) → List (Bytes × Doc)
  | [] => []
  | (key, value) :: members => (key, docOf value) :: membersOf members

end

theorem docOf_isContainer {value : Value δ} (h : value.isContainer) : (docOf value).isContainer := by
  cases value with
  | list values => rfl
  | dict members => rfl
  | _ => cases h

/-- A tree of this kind is made of lists, dictionaries, `null`, booleans, integers of 64 bits, and
strings and keys that are escaped. -/
def Plain : Value δ → Prop
  | .int i => -2 ^ 63 ≤ i ∧ i < 2 ^ 63
  | .double _ => False
  | .string s => AlreadyEscaped s
  | .blob _ => False
  | .dict members => Value.Sorted members ∧ ∀ e ∈ members, AlreadyEscaped e.1
  | _ => True

variable [Double δ]

/-- The document is one that can be written, and read again to the same value. -/
structure Faithful (value : Value δ) : Prop where
  writable : (docOf value).Writable
  readable : (docOf value).Readable δ
  value_eq : (docOf value).value = value

theorem faithful_list {values : List (Value δ)} (h : ∀ v ∈ values, Faithful v) :
    ElementsWritable (docsOf values) ∧ ElementsReadable δ (docsOf values) ∧
      elementValues (docsOf values) = values := by
  induction values with
  | nil => exact ⟨trivial, trivial, rfl⟩
  | cons v values ih =>
    have hv := h v List.mem_cons_self
    obtain ⟨hwritable, hreadable, heq⟩ := ih fun w hw => h w (List.mem_cons_of_mem _ hw)
    refine ⟨⟨hv.writable, hwritable⟩, ⟨hv.readable, hreadable⟩, ?_⟩
    rw [docsOf, elementValues, hv.value_eq, heq]

theorem faithful_dict {acc members : List (Bytes × Value δ)} {seen : List Bytes}
    (h : ∀ e ∈ members, AlreadyEscaped e.1 ∧ Faithful e.2) (hsorted : Value.Sorted (acc ++ members))
    (hseen : ∀ e ∈ members, e.1 ∉ seen) :
    MembersWritable (membersOf members) ∧ MembersReadable δ seen (membersOf members) ∧
      memberValues acc (membersOf members) = acc ++ members := by
  induction members generalizing acc seen with
  | nil => exact ⟨trivial, trivial, (List.append_nil acc).symm⟩
  | cons e members ih =>
    obtain ⟨hkey, hvalue⟩ := h e List.mem_cons_self
    obtain ⟨hacc, hmembers, hlt⟩ := List.pairwise_append.mp hsorted
    have hset : Value.set acc e.1 e.2 = acc ++ [e] :=
      OrdMap.insertEntry_append e.2 fun a ha => hlt a ha e List.mem_cons_self
    have hsorted' : Value.Sorted ((acc ++ [e]) ++ members) := by
      rw [List.append_assoc]
      exact hsorted
    have hseen' : ∀ a ∈ members, a.1 ∉ e.1 :: seen := by
      intro a ha hmem
      rcases List.mem_cons.mp hmem with heq | hmem
      · have hea := (List.pairwise_cons.mp hmembers).1 a ha
        rw [heq] at hea
        exact hea.false
      · exact hseen a (List.mem_cons_of_mem _ ha) hmem
    obtain ⟨hwritable, hreadable, heq⟩ :=
      ih (fun a ha => h a (List.mem_cons_of_mem _ ha)) hsorted' hseen'
    refine ⟨⟨hkey.escaped, hvalue.writable, hwritable⟩,
      ⟨hvalue.readable, fun _ => hseen e List.mem_cons_self, hreadable⟩, ?_⟩
    rw [membersOf, memberValues, hvalue.value_eq, hset, heq, List.append_assoc]
    rfl

/-- Every plain tree is read again from its document. -/
theorem faithful (value : Value δ) (h : value.All Plain) : Faithful value := by
  induction value using Value.tree_induction with
  | null => exact ⟨trivial, trivial, rfl⟩
  | bool b => exact ⟨trivial, trivial, rfl⟩
  | int i =>
    have hsigned := signed_signedDecimal i
    have hbasic := @parseBasic_signed δ _ _ hsigned _ (stoll_signedDecimal h.self)
    refine ⟨hsigned.word, ⟨hsigned.word, _, hbasic⟩, ?_⟩
    rw [docOf, Doc.value, hbasic]
  | double d => exact h.self.elim
  | string s => exact ⟨h.self.escaped, trivial, rfl⟩
  | blob s => exact h.self.elim
  | list values ih =>
    obtain ⟨hwritable, hreadable, heq⟩ := faithful_list fun v hv => ih v hv (h.element hv)
    refine ⟨hwritable, hreadable, ?_⟩
    rw [docOf, Doc.value, heq]
  | dict members ih =>
    obtain ⟨hsorted, hkeys⟩ := h.self
    obtain ⟨hwritable, hreadable, heq⟩ := @faithful_dict δ _ [] members []
      (fun e he => ⟨hkeys e he, ih e he (h.member he)⟩) hsorted fun e _ => List.not_mem_nil
    refine ⟨hwritable, hreadable, ?_⟩
    rw [docOf, Doc.value, heq]
    rfl

/-- What is written goes in front of what is written later. -/
def prepend (front : Bytes) (streamed : Except Fault (Bool × Bytes)) : Except Fault (Bool × Bytes) :=
  (fun r => (r.1, front ++ r.2)) <$> streamed

theorem prepend_prepend (front middle : Bytes) (streamed : Except Fault (Bool × Bytes)) :
    prepend front (prepend middle streamed) = prepend (front ++ middle) streamed := by
  cases streamed <;> simp [prepend]

/-- The loop of `streamify` after a call. -/
def resume (fuel rounds : ℕ) (value : Value δ) (stack : List (Value δ × ℕ)) :
    Streamed δ × List (List (Bytes × Value δ)) → Except Fault (Bool × Bytes)
  | (.failed out, _) => .ok (false, out)
  | (.done out, iters) => prepend out (streamifyLoop fuel rounds stack iters)
  | (.nested count child news out, iters) =>
    prepend out (streamifyLoop fuel rounds ((child, 0) :: (value, count) :: stack) (news ++ iters))

theorem streamifyLoop_succ (fuel rounds : ℕ) (value : Value δ) (count : ℕ)
    (stack : List (Value δ × ℕ)) (iters : List (List (Bytes × Value δ))) :
    streamifyLoop fuel (rounds + 1) ((value, count) :: stack) iters =
      (streamifyTop fuel value count iters).bind (resume fuel rounds value stack) := by
  rw [streamifyLoop]
  cases streamifyTop fuel value count iters with
  | error fault => rfl
  | ok called =>
    obtain ⟨streamed, iters⟩ := called
    cases streamed <;> rfl

theorem resume_after (fuel rounds : ℕ) (value : Value δ) (stack : List (Value δ × ℕ)) (front : Bytes)
    (streamed : Streamed δ) (iters : List (List (Bytes × Value δ))) :
    resume fuel rounds value stack (streamed.after front, iters) =
      prepend front (resume fuel rounds value stack (streamed, iters)) := by
  cases streamed with
  | failed out => rfl
  | done out => rw [Streamed.after, resume, resume, prepend_prepend]
  | nested count child news out => rw [Streamed.after, resume, resume, prepend_prepend]

theorem streamifyElements_word {values : List (Value δ)} {count : ℕ} {value : Value δ} {text : Bytes}
    (hget : values[count]? = some value) (hword : value.isContainer = false)
    (htext : streamifyBasic value = some text) (fuel : ℕ) :
    streamifyElements values (fuel + 1) count =
      if (count + 1) % 2 ^ 32 = values.length then
        .ok (.done (separator 91 count values.length ++ (text ++ [93])))
      else (Streamed.after (separator 91 count values.length ++ text)) <$>
        streamifyElements values fuel ((count + 1) % 2 ^ 32) := by
  rw [streamifyElements, hget]
  cases value with
  | list _ => cases hword
  | dict _ => cases hword
  | _ => simp only [htext]

theorem streamifyElements_failed {values : List (Value δ)} {count : ℕ} {value : Value δ}
    (hget : values[count]? = some value) (hword : value.isContainer = false)
    (hnone : streamifyBasic value = none) (fuel : ℕ) :
    streamifyElements values (fuel + 1) count =
      .ok (.failed (separator 91 count values.length)) := by
  rw [streamifyElements, hget]
  cases value with
  | list _ => cases hword
  | dict _ => cases hword
  | _ => simp only [hnone]

theorem streamifyMembers_word {value : Value δ} {text : Bytes} (hword : value.isContainer = false)
    (htext : streamifyBasic value = some text) (size count : ℕ) (name : Bytes)
    (iter : List (Bytes × Value δ)) :
    streamifyMembers size count ((name, value) :: iter) =
      if (count + 1) % 2 ^ 32 = size then
        .done (separator 123 count size ++ 34 :: (name ++ [34, 58]) ++ (text ++ [125]))
      else (streamifyMembers size ((count + 1) % 2 ^ 32) iter).after
        (separator 123 count size ++ 34 :: (name ++ [34, 58]) ++ text) := by
  rw [streamifyMembers.eq_def]
  cases value with
  | list _ => cases hword
  | dict _ => cases hword
  | _ => simp only [htext]

theorem streamifyMembers_failed {value : Value δ} (hword : value.isContainer = false)
    (hnone : streamifyBasic value = none) (size count : ℕ) (name : Bytes)
    (iter : List (Bytes × Value δ)) :
    streamifyMembers size count ((name, value) :: iter) =
      .failed (separator 123 count size ++ 34 :: (name ++ [34, 58])) := by
  rw [streamifyMembers.eq_def]
  cases value with
  | list _ => cases hword
  | dict _ => cases hword
  | _ => simp only [hnone]

/-- A value on top of the stack is written, and the loop goes on with what is below it. -/
def Runs (fuel : ℕ) (value : Value δ) : Prop :=
  ∃ n, ∀ rounds stack iters,
    streamifyLoop fuel (rounds + n) ((value, 0) :: stack) (iterOf value ++ iters) =
      prepend (docOf value).write (streamifyLoop fuel rounds stack iters)

def Streams (fuel : ℕ) (value : Value δ) : Prop :=
  (value.isContainer = true ∧ Runs fuel value) ∨
  (value.isContainer = false ∧ streamifyBasic value = some (docOf value).write)

/-- A list on top of the stack goes on with the element at `count`; the text is what is written
until the list is done. -/
def ListRuns (fuel : ℕ) (values : List (Value δ)) (count : ℕ) (text : Bytes) : Prop :=
  ∃ n, ∀ rounds stack iters,
    streamifyLoop fuel (rounds + n) ((.list values, count) :: stack) iters =
      prepend text (streamifyLoop fuel rounds stack iters)

/-- The same inside of `streamifyArray`. -/
def ElementsRun (fuel : ℕ) (values : List (Value δ)) (count : ℕ) (text : Bytes) : Prop :=
  ∃ n, ∀ f rounds stack iters, values.length < count + f →
    (streamifyElements values f count).bind
      (fun streamed => resume fuel (rounds + n) (.list values) stack (streamed, iters)) =
    prepend text (streamifyLoop fuel rounds stack iters)

theorem ElementsRun.listRuns {fuel : ℕ} {values : List (Value δ)} {count : ℕ} {text : Bytes}
    (h : ElementsRun fuel values count text) (hfuel : values.length < fuel) (hne : values ≠ [])
    (hcount : count ≠ values.length) : ListRuns fuel values count text := by
  obtain ⟨n, hn⟩ := h
  refine ⟨n + 1, fun rounds stack iters => ?_⟩
  have hrun := hn fuel rounds stack iters (by omega)
  rw [← hrun, ← Nat.add_assoc, streamifyLoop_succ, streamifyTop, streamifyArray, if_neg hne,
    if_neg hcount]
  cases streamifyElements values fuel count <;> rfl

theorem listRuns_end {values : List (Value δ)} (hne : values ≠ []) (fuel : ℕ) :
    ListRuns fuel values values.length [93] := by
  refine ⟨1, fun rounds stack iters => ?_⟩
  rw [streamifyLoop_succ, streamifyTop, streamifyArray, if_neg hne, if_pos rfl]
  rfl

theorem elementsRun_step {fuel : ℕ} {values : List (Value δ)} {count : ℕ} {v : Value δ}
    {text : Bytes} (hsize : values.length < 2 ^ 32) (hget : values[count]? = some v)
    (hv : Streams fuel v) (hlist : ListRuns fuel values (count + 1) text)
    (helements : count + 1 ≠ values.length → ElementsRun fuel values (count + 1) text)
    (hend : count + 1 = values.length → text = [93]) :
    ElementsRun fuel values count
      (separator 91 count values.length ++ ((docOf v).write ++ text)) := by
  have hlt : count < values.length := (List.getElem?_eq_some_iff.mp hget).1
  have hcount : (count + 1) % 2 ^ 32 = count + 1 := Nat.mod_eq_of_lt (by omega)
  rcases hv with ⟨hcontainer, n, hn⟩ | ⟨hword, htext⟩
  · obtain ⟨m, hm⟩ := hlist
    refine ⟨m + n, fun f rounds stack iters hf => ?_⟩
    obtain ⟨f, rfl⟩ := Nat.exists_eq_succ_of_ne_zero (by omega : f ≠ 0)
    rw [streamifyElements_container hget hcontainer, hcount]
    calc
      prepend (separator 91 count values.length) (streamifyLoop fuel (rounds + (m + n))
          ((v, 0) :: (.list values, count + 1) :: stack) (iterOf v ++ iters))
          = prepend (separator 91 count values.length) (prepend (docOf v).write
              (streamifyLoop fuel (rounds + m) ((.list values, count + 1) :: stack) iters)) := by
            rw [← Nat.add_assoc, hn]
      _ = _ := by rw [hm, prepend_prepend, prepend_prepend, List.append_assoc]
  · by_cases hlast : count + 1 = values.length
    · refine ⟨0, fun f rounds stack iters hf => ?_⟩
      obtain ⟨f, rfl⟩ := Nat.exists_eq_succ_of_ne_zero (by omega : f ≠ 0)
      rw [streamifyElements_word hget hword htext, hcount, if_pos hlast, hend hlast]
      rfl
    · obtain ⟨n, hn⟩ := helements hlast
      refine ⟨n, fun f rounds stack iters hf => ?_⟩
      obtain ⟨f, rfl⟩ := Nat.exists_eq_succ_of_ne_zero (by omega : f ≠ 0)
      have hrest := hn f rounds stack iters (by omega)
      rw [streamifyElements_word hget hword htext, hcount, if_neg hlast, ← List.append_assoc,
        ← prepend_prepend, ← hrest]
      cases hcalled : streamifyElements values f (count + 1) with
      | error fault => rfl
      | ok streamed => exact resume_after _ _ _ _ _ _ _

theorem elementsRun_rest {fuel : ℕ} {values : List (Value δ)} (hfuel : values.length < fuel)
    (hsize : values.length < 2 ^ 32) (hstreams : ∀ v ∈ values, Streams fuel v)
    {front back : List (Value δ)} (hvalues : values = front ++ back) (hfront : front ≠ []) :
    ListRuns fuel values front.length (writeElements (docsOf back)) ∧
      (front.length ≠ values.length →
        ElementsRun fuel values front.length (writeElements (docsOf back))) := by
  have hne : values ≠ [] := by
    rw [hvalues]
    exact List.append_ne_nil_of_left_ne_nil hfront back
  induction back generalizing front with
  | nil =>
    rw [List.append_nil] at hvalues
    subst hvalues
    exact ⟨listRuns_end hne fuel, fun h => absurd rfl h⟩
  | cons v back ih =>
    have hget : values[front.length]? = some v := by
      rw [hvalues]
      simp
    have hlt : front.length < values.length := (List.getElem?_eq_some_iff.mp hget).1
    have hv : Streams fuel v := hstreams v (List.mem_of_getElem? hget)
    have hvalues' : values = (front ++ [v]) ++ back := by
      rw [hvalues]
      simp
    have hlength : (front ++ [v]).length = front.length + 1 := by simp
    obtain ⟨hlist, helements⟩ := ih hvalues' (by simp)
    rw [hlength] at hlist helements
    have hseparator : separator 91 front.length values.length = [44] := by
      rw [separator, if_neg (by simpa using hfront), if_pos hlt]
    have hend : front.length + 1 = values.length → writeElements (docsOf back) = [93] := by
      intro heq
      rw [hvalues', List.length_append, hlength] at heq
      have hback : back = [] := List.eq_nil_of_length_eq_zero (by omega)
      rw [hback, docsOf, writeElements]
    have hrun := elementsRun_step hsize hget hv hlist helements hend
    rw [hseparator] at hrun
    have hrun' : ElementsRun fuel values front.length (writeElements (docsOf (v :: back))) := by
      rw [docsOf, writeElements]
      exact hrun
    exact ⟨hrun'.listRuns hfuel hne hlt.ne, fun _ => hrun'⟩

theorem runs_list {fuel : ℕ} {values : List (Value δ)} (hfuel : values.length < fuel)
    (hsize : values.length < 2 ^ 32) (hstreams : ∀ v ∈ values, Streams fuel v) :
    Runs fuel (.list values) := by
  cases values with
  | nil =>
    refine ⟨1, fun rounds stack iters => ?_⟩
    rw [streamifyLoop_succ]
    rfl
  | cons v values =>
    obtain ⟨hlist, helements⟩ := elementsRun_rest hfuel hsize hstreams
      (List.singleton_append.symm : v :: values = [v] ++ values) (List.cons_ne_nil v [])
    have hend : 0 + 1 = (v :: values).length → writeElements (docsOf values) = [93] := by
      intro heq
      have hnil : values = [] := List.eq_nil_of_length_eq_zero (by simpa using heq.symm)
      rw [hnil, docsOf, writeElements]
    have hrun := elementsRun_step hsize (rfl : (v :: values)[0]? = some v)
      (hstreams v List.mem_cons_self) hlist helements hend
    exact hrun.listRuns hfuel (List.cons_ne_nil v values) (by simp)

/-- A dictionary on top of the stack goes on with the entries from the iterator on. -/
def DictRuns (fuel : ℕ) (members : List (Bytes × Value δ)) (count : ℕ)
    (iter : List (Bytes × Value δ)) (text : Bytes) : Prop :=
  ∃ n, ∀ rounds stack iters,
    streamifyLoop fuel (rounds + n) ((.dict members, count) :: stack) (iter :: iters) =
      prepend text (streamifyLoop fuel rounds stack iters)

/-- The same inside of `streamifyObject`. -/
def MembersRun (fuel : ℕ) (members : List (Bytes × Value δ)) (count : ℕ)
    (iter : List (Bytes × Value δ)) (text : Bytes) : Prop :=
  ∃ n, ∀ rounds stack iters,
    resume fuel (rounds + n) (.dict members) stack
      (streamifyMembers members.length count iter, iters) =
    prepend text (streamifyLoop fuel rounds stack iters)

theorem MembersRun.dictRuns {fuel : ℕ} {members iter : List (Bytes × Value δ)} {count : ℕ}
    {text : Bytes} (h : MembersRun fuel members count iter text) (hne : members ≠ [])
    (hcount : count ≠ members.length) : DictRuns fuel members count iter text := by
  obtain ⟨n, hn⟩ := h
  refine ⟨n + 1, fun rounds stack iters => ?_⟩
  rw [← Nat.add_assoc, streamifyLoop_succ, streamifyTop, streamifyObject, if_neg hne, if_neg hcount]
  exact hn rounds stack iters

theorem dictRuns_end {members : List (Bytes × Value δ)} (hne : members ≠ []) (fuel : ℕ)
    (iter : List (Bytes × Value δ)) : DictRuns fuel members members.length iter [125] := by
  refine ⟨1, fun rounds stack iters => ?_⟩
  rw [streamifyLoop_succ, streamifyTop, streamifyObject, if_neg hne, if_pos rfl]
  rfl

theorem membersRun_step {fuel : ℕ} {members iter : List (Bytes × Value δ)} {count : ℕ} {name : Bytes}
    {v : Value δ} {text : Bytes} (hsize : members.length < 2 ^ 32) (hlt : count < members.length)
    (hv : Streams fuel v) (hdict : DictRuns fuel members (count + 1) iter text)
    (hmembers : count + 1 ≠ members.length → MembersRun fuel members (count + 1) iter text)
    (hend : count + 1 = members.length → text = [125]) :
    MembersRun fuel members count ((name, v) :: iter)
      (separator 123 count members.length ++ (quoted name ++ 58 :: ((docOf v).write ++ text))) := by
  have hcount : (count + 1) % 2 ^ 32 = count + 1 := Nat.mod_eq_of_lt (by omega)
  have hout : separator 123 count members.length ++ (quoted name ++ 58 :: ((docOf v).write ++ text)) =
      separator 123 count members.length ++ 34 :: (name ++ [34, 58]) ++ ((docOf v).write ++ text) := by
    simp [quoted]
  rw [hout]
  rcases hv with ⟨hcontainer, n, hn⟩ | ⟨hword, htext⟩
  · obtain ⟨m, hm⟩ := hdict
    refine ⟨m + n, fun rounds stack iters => ?_⟩
    rw [streamifyMembers_container hcontainer, hcount, resume, List.append_assoc, ← Nat.add_assoc, hn,
      List.singleton_append, hm, prepend_prepend, prepend_prepend]
    simp
  · by_cases hlast : count + 1 = members.length
    · refine ⟨0, fun rounds stack iters => ?_⟩
      rw [streamifyMembers_word hword htext, hcount, if_pos hlast, hend hlast]
      rfl
    · obtain ⟨n, hn⟩ := hmembers hlast
      refine ⟨n, fun rounds stack iters => ?_⟩
      rw [streamifyMembers_word hword htext, hcount, if_neg hlast, resume_after, hn, prepend_prepend]
      simp

theorem membersRun_rest {fuel : ℕ} {members : List (Bytes × Value δ)}
    (hsize : members.length < 2 ^ 32) (hstreams : ∀ e ∈ members, Streams fuel e.2)
    {front back : List (Bytes × Value δ)} (hmembers : members = front ++ back) (hfront : front ≠ []) :
    DictRuns fuel members front.length back (writeMembers (membersOf back)) ∧
      (front.length ≠ members.length →
        MembersRun fuel members front.length back (writeMembers (membersOf back))) := by
  have hne : members ≠ [] := by
    rw [hmembers]
    exact List.append_ne_nil_of_left_ne_nil hfront back
  induction back generalizing front with
  | nil =>
    rw [List.append_nil] at hmembers
    subst hmembers
    exact ⟨dictRuns_end hne fuel [], fun h => absurd rfl h⟩
  | cons e back ih =>
    have hlength : members.length = front.length + 1 + back.length := by
      rw [hmembers, List.length_append, List.length_cons]
      omega
    have he : Streams fuel e.2 := hstreams e (by rw [hmembers]; simp)
    have hmembers' : members = (front ++ [e]) ++ back := by
      rw [hmembers]
      simp
    have hfront' : (front ++ [e]).length = front.length + 1 := by simp
    obtain ⟨hdict, hrest⟩ := ih hmembers' (by simp)
    rw [hfront'] at hdict hrest
    have hseparator : separator 123 front.length members.length = [44] := by
      rw [separator, if_neg (by simpa using hfront), if_pos (by omega)]
    have hend : front.length + 1 = members.length → writeMembers (membersOf back) = [125] := by
      intro heq
      have hback : back = [] := List.eq_nil_of_length_eq_zero (by omega)
      rw [hback, membersOf, writeMembers]
    have hrun := @membersRun_step δ _ fuel members back front.length e.1 e.2 _ hsize (by omega) he hdict
      hrest hend
    rw [hseparator] at hrun
    have hrun' : MembersRun fuel members front.length (e :: back)
        (writeMembers (membersOf (e :: back))) := by
      rw [membersOf, writeMembers]
      exact hrun
    exact ⟨hrun'.dictRuns hne (by omega), fun _ => hrun'⟩

theorem runs_dict {fuel : ℕ} {members : List (Bytes × Value δ)} (hsize : members.length < 2 ^ 32)
    (hstreams : ∀ e ∈ members, Streams fuel e.2) : Runs fuel (.dict members) := by
  cases members with
  | nil =>
    refine ⟨1, fun rounds stack iters => ?_⟩
    rw [streamifyLoop_succ]
    rfl
  | cons e members =>
    obtain ⟨hdict, hrest⟩ := membersRun_rest hsize hstreams
      (List.singleton_append.symm : e :: members = [e] ++ members) (List.cons_ne_nil e [])
    have hend : 0 + 1 = (e :: members).length → writeMembers (membersOf members) = [125] := by
      intro heq
      have hnil : members = [] := List.eq_nil_of_length_eq_zero (by simpa using heq.symm)
      rw [hnil, membersOf, writeMembers]
    have hrun := @membersRun_step δ _ fuel (e :: members) members 0 e.1 e.2 _ hsize (by simp)
      (hstreams e List.mem_cons_self) hdict hrest hend
    exact hrun.dictRuns (List.cons_ne_nil e members) (by simp)

/-- The list or dictionary has fewer than `n` elements. -/
def Shorter (n : ℕ) : Value δ → Prop
  | .list values => values.length < n
  | .dict members => members.length < n
  | _ => True

/-- Every value of a plain tree is written, when no count wraps around. -/
theorem streams {fuel : ℕ} (value : Value δ) (hplain : value.All Plain)
    (hfuel : value.All (Shorter fuel)) (hsize : value.All (Shorter (2 ^ 32))) : Streams fuel value := by
  induction value using Value.tree_induction with
  | null => exact .inr ⟨rfl, rfl⟩
  | bool b => exact .inr ⟨rfl, rfl⟩
  | int i => exact .inr ⟨rfl, rfl⟩
  | double d => exact hplain.self.elim
  | string s => exact .inr ⟨rfl, rfl⟩
  | blob s => exact hplain.self.elim
  | list values ih =>
    refine .inl ⟨rfl, runs_list hfuel.self hsize.self fun v hv => ?_⟩
    exact ih v hv (hplain.element hv) (hfuel.element hv) (hsize.element hv)
  | dict members ih =>
    refine .inl ⟨rfl, runs_dict hsize.self fun e he => ?_⟩
    exact ih e he (hplain.member he) (hfuel.member he) (hsize.member he)

theorem streamifyElements_mono {values : List (Value δ)} {f count : ℕ} {streamed : Streamed δ}
    (h : streamifyElements values f count = .ok streamed) (more : ℕ) :
    streamifyElements values (f + more) count = .ok streamed := by
  induction f generalizing count streamed with
  | zero => cases h
  | succ f ih =>
    rw [Nat.add_right_comm]
    cases hget : values[count]? with
    | none =>
      rw [streamifyElements_end hget] at h ⊢
      exact h
    | some value =>
      by_cases hcontainer : value.isContainer
      · rw [streamifyElements_container hget hcontainer] at h ⊢
        exact h
      · have hword : value.isContainer = false := by simpa using hcontainer
        cases htext : streamifyBasic value with
        | none =>
          rw [streamifyElements_failed hget hword htext] at h ⊢
          exact h
        | some text =>
          rw [streamifyElements_word hget hword htext] at h ⊢
          split_ifs at h ⊢ with hlast
          · exact h
          · cases hrest : streamifyElements values f ((count + 1) % 2 ^ 32) with
            | error fault =>
              rw [hrest] at h
              cases h
            | ok rest =>
              rw [hrest] at h
              rw [ih hrest]
              exact h

theorem streamifyTop_mono {fuel : ℕ} {value : Value δ} {count : ℕ}
    {iters : List (List (Bytes × Value δ))} {called : Streamed δ × List (List (Bytes × Value δ))}
    (h : streamifyTop fuel value count iters = .ok called) (more : ℕ) :
    streamifyTop (fuel + more) value count iters = .ok called := by
  cases value with
  | list values =>
    rw [streamifyTop, streamifyArray] at h ⊢
    split_ifs at h ⊢ with hnil hcount
    · exact h
    · exact h
    · cases hrest : streamifyElements values fuel count with
      | error fault =>
        rw [hrest] at h
        cases h
      | ok streamed =>
        rw [hrest] at h
        rw [streamifyElements_mono hrest]
        exact h
  | dict members => cases iters <;> exact h
  | _ => exact h

theorem streamifyLoop_mono {fuel rounds : ℕ} {stack : List (Value δ × ℕ)}
    {iters : List (List (Bytes × Value δ))} {r : Bool × Bytes}
    (h : streamifyLoop fuel rounds stack iters = .ok r) (more further : ℕ) :
    streamifyLoop (fuel + more) (rounds + further) stack iters = .ok r := by
  induction rounds generalizing stack iters r with
  | zero =>
    cases stack with
    | nil =>
      rw [streamifyLoop_nil] at h ⊢
      exact h
    | cons top stack => cases h
  | succ rounds ih =>
    cases stack with
    | nil =>
      rw [streamifyLoop_nil] at h ⊢
      exact h
    | cons top stack =>
      obtain ⟨value, count⟩ := top
      have hprepend {out : Bytes} {stack' : List (Value δ × ℕ)}
          {iters' : List (List (Bytes × Value δ))}
          (h : prepend out (streamifyLoop fuel rounds stack' iters') = .ok r) :
          prepend out (streamifyLoop (fuel + more) (rounds + further) stack' iters') = .ok r := by
        cases hrest : streamifyLoop fuel rounds stack' iters' with
        | error fault =>
          rw [hrest] at h
          cases h
        | ok rest =>
          rw [hrest] at h
          rw [ih hrest]
          exact h
      rw [Nat.add_right_comm, streamifyLoop_succ]
      rw [streamifyLoop_succ] at h
      cases htop : streamifyTop fuel value count iters with
      | error fault =>
        rw [htop] at h
        cases h
      | ok called =>
        rw [htop] at h
        rw [streamifyTop_mono htop]
        obtain ⟨streamed, iters⟩ := called
        cases streamed with
        | failed out => exact h
        | done out => exact hprepend h
        | nested count child news out => exact hprepend h

/-- `streamify` writes the document of the tree. -/
theorem streamify_eq {value : Value δ} (hplain : value.All Plain) (hcontainer : value.isContainer)
    (hsize : value.All (Shorter (2 ^ 32))) :
    ∃ n, ∀ fuel ≥ n, streamify fuel value = .ok (true, (docOf value).write) := by
  rcases streams value hplain hsize hsize with ⟨-, n, hn⟩ | ⟨hword, -⟩
  · have hrun : streamifyLoop (2 ^ 32) n [(value, 0)] (iterOf value) =
        .ok (true, (docOf value).write) := by
      have hrun := hn 0 [] []
      rw [Nat.zero_add, List.append_nil] at hrun
      rw [hrun, streamifyLoop_nil]
      simp [prepend]
    refine ⟨max n (2 ^ 32), fun fuel hfuel => ?_⟩
    obtain ⟨more, hmore⟩ := Nat.exists_eq_add_of_le (le_of_max_le_right hfuel)
    obtain ⟨further, hfurther⟩ := Nat.exists_eq_add_of_le (le_of_max_le_left hfuel)
    have hmono := streamifyLoop_mono hrun more further
    rw [← hmore, ← hfurther] at hmono
    exact hmono
  · rw [hword] at hcontainer
    cases hcontainer

end Sese.Json
