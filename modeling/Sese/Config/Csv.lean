import Sese.Util.Bytes

/-!
# CSV

`CSVReader` and `CSVWriter`. The stream is the list of the octets that are still to be read.

The reader takes a field between double quotes as it stands, the writer never puts quotes: rows
come back exactly when no field has a quote, the split character or the end of a line in it.
-/
namespace Sese.Csv

abbrev Row := List Bytes

/-- The row at the end of the stream; `ch` is the octet read last. -/
def atEnd (row : Row) (builder : Bytes) (ch : UInt8) : Row :=
  if builder ≠ [] ∨ ch = 44 then row ++ [builder] else row

/-- The loop of `CSVReader::read`: the row so far, the field so far, the quotes counted, the
octet read last and the octets to come. -/
def readLoop (splitChar : UInt8) (row : Row) (builder : Bytes) (quot : ℕ) (ch : UInt8) :
    Bytes → Row × Bytes
  | [] => (atEnd row builder ch, [])
  | ch :: source =>
    if quot % 2 = 1 then
      if ch ≠ 34 then readLoop splitChar row (builder ++ [ch]) quot ch source
      else readLoop splitChar row builder (quot + 1) ch source
    else if ch = 34 then readLoop splitChar row builder (quot + 1) ch source
    else if ch = splitChar then readLoop splitChar (row ++ [builder]) [] quot ch source
    else if ch = 13 then
      match source with
      -- nothing can be read behind the CR, nor with the next try
      | [] => (atEnd row builder ch, [])
      -- the octet behind the CR is not looked at
      | _ :: source => (row ++ [builder], source)
    else if ch = 10 then (row ++ [builder], source)
    else readLoop splitChar row (builder ++ [ch]) quot ch source

/-- `CSVReader::read`: the row and what is left of the stream. -/
def read (splitChar : UInt8) (source : Bytes) : Row × Bytes := readLoop splitChar [] [] 0 0 source

/-- Calls of `read` until the row is empty, at most `fuel` of them. -/
def readCalls (splitChar : UInt8) : ℕ → Bytes → List Row
  | 0, _ => []
  | fuel + 1, source =>
    let (row, source) := read splitChar source
    if row = [] then [] else row :: readCalls splitChar fuel source

/-- All rows of a text. A call that gives a row takes an octet of it (`read_shorter`), so that
there is one call more than octets at most. -/
def readRows (splitChar : UInt8) (source : Bytes) : List Row :=
  readCalls splitChar (source.length + 1) source

/-- The loop of `CSVWriter::write`. -/
def writeLoop (splitChar : UInt8) : Bool → Row → Bytes
  | _, [] => []
  | true, col :: row => col ++ writeLoop splitChar false row
  | false, col :: row => splitChar :: (col ++ writeLoop splitChar false row)

def write (splitChar : UInt8) (isCRLF : Bool) (row : Row) : Bytes :=
  writeLoop splitChar true row ++ if isCRLF then [13, 10] else [10]

def writeRows (splitChar : UInt8) (isCRLF : Bool) (rows : List Row) : Bytes :=
  rows.flatMap (write splitChar isCRLF)

variable {splitChar : UInt8}

/-- The octets that are special neither to the reader nor to the writer. -/
def PlainOctet (splitChar b : UInt8) : Prop := b ≠ 34 ∧ b ≠ splitChar ∧ b ≠ 13 ∧ b ≠ 10

def Plain (splitChar : UInt8) (row : Row) : Prop := ∀ col ∈ row, ∀ b ∈ col, PlainOctet splitChar b

structure Allowed (splitChar : UInt8) : Prop where
  ne_quote : splitChar ≠ 34
  ne_cr : splitChar ≠ 13
  ne_lf : splitChar ≠ 10

/-- The octet read last matters only at the end of the stream. -/
theorem readLoop_last (row : Row) (builder : Bytes) (quot : ℕ) (ch ch' b : UInt8) (rest : Bytes) :
    readLoop splitChar row builder quot ch (b :: rest) =
      readLoop splitChar row builder quot ch' (b :: rest) := by
  rw [readLoop.eq_def, readLoop.eq_def]

theorem readLoop_plain {field : Bytes} (h : ∀ b ∈ field, PlainOctet splitChar b) (row : Row)
    (builder : Bytes) (ch b : UInt8) (rest : Bytes) :
    readLoop splitChar row builder 0 ch (field ++ b :: rest) =
      readLoop splitChar row (builder ++ field) 0 ch (b :: rest) := by
  induction field generalizing builder ch with
  | nil => simp
  | cons c field ih =>
    obtain ⟨hquote, hsplit, hcr, hlf⟩ := h c List.mem_cons_self
    rw [List.cons_append, readLoop.eq_def]
    dsimp only
    rw [if_neg (by decide), if_neg hquote, if_neg hsplit, if_neg hcr, if_neg hlf,
      ih fun b hb => h b (List.mem_cons_of_mem _ hb), List.append_assoc]
    exact readLoop_last _ _ _ _ _ _ _

theorem readLoop_lineEnd (h : Allowed splitChar) (isCRLF : Bool) (row : Row) (builder : Bytes)
    (ch : UInt8) (rest : Bytes) :
    readLoop splitChar row builder 0 ch ((if isCRLF then [13, 10] else [10]) ++ rest) =
      (row ++ [builder], rest) := by
  cases isCRLF with
  | false =>
    change readLoop splitChar row builder 0 ch (10 :: rest) = _
    rw [readLoop.eq_def]
    simp [h.ne_lf.symm]
  | true =>
    change readLoop splitChar row builder 0 ch (13 :: 10 :: rest) = _
    rw [readLoop.eq_def]
    simp [h.ne_cr.symm]

theorem lineEnd_cons (isCRLF : Bool) :
    ∃ b front, (if isCRLF then [13, 10] else [10] : Bytes) = b :: front := by
  cases isCRLF with
  | false => exact ⟨10, [], rfl⟩
  | true => exact ⟨13, [10], rfl⟩

theorem readLoop_columns (h : Allowed splitChar) (isCRLF : Bool) {cols : Row}
    (hcols : Plain splitChar cols) (row : Row) {col : Bytes}
    (hcol : ∀ b ∈ col, PlainOctet splitChar b) (ch : UInt8) (rest : Bytes) :
    readLoop splitChar row [] 0 ch (col ++ (writeLoop splitChar false cols ++
      ((if isCRLF then [13, 10] else [10]) ++ rest))) = (row ++ col :: cols, rest) := by
  induction cols generalizing row col ch with
  | nil =>
    obtain ⟨b, front, hend⟩ := lineEnd_cons isCRLF
    have hloop := readLoop_lineEnd h isCRLF row col ch rest
    rw [hend] at hloop
    rw [writeLoop, List.nil_append, hend, List.cons_append, readLoop_plain hcol]
    exact hloop
  | cons next cols ih =>
    have hnext := ih (fun c hc => hcols c (List.mem_cons_of_mem _ hc)) (row ++ [col])
      (hcols next List.mem_cons_self) splitChar
    rw [writeLoop, List.cons_append, readLoop_plain hcol, List.nil_append, readLoop.eq_def]
    dsimp only
    rw [if_neg (by decide), if_neg h.ne_quote, if_pos rfl, List.append_assoc, hnext,
      List.append_assoc, List.singleton_append]

theorem read_write (h : Allowed splitChar) (isCRLF : Bool) {row : Row} (hne : row ≠ [])
    (hrow : Plain splitChar row) (rest : Bytes) :
    read splitChar (write splitChar isCRLF row ++ rest) = (row, rest) := by
  cases row with
  | nil => exact absurd rfl hne
  | cons col cols =>
    rw [write, writeLoop, read, List.append_assoc, List.append_assoc]
    apply readLoop_columns h isCRLF
    · exact fun c hc => hrow c (List.mem_cons_of_mem _ hc)
    · exact hrow col List.mem_cons_self

/-- The fields so far, and the one that is being read, have octets of `P` only. -/
structure Fields (P : UInt8 → Prop) (row : Row) (builder : Bytes) : Prop where
  row : ∀ col ∈ row, ∀ b ∈ col, P b
  builder : ∀ b ∈ builder, P b

theorem Fields.octet {P : UInt8 → Prop} {row : Row} {builder : Bytes} (h : Fields P row builder)
    {b : UInt8} (hb : P b) : Fields P row (builder ++ [b]) := by
  refine ⟨h.row, fun c hc => ?_⟩
  rcases List.mem_append.mp hc with hc | hc
  · exact h.builder c hc
  · rwa [List.mem_singleton.mp hc]

theorem Fields.column {P : UInt8 → Prop} {row : Row} {builder : Bytes} (h : Fields P row builder) :
    Fields P (row ++ [builder]) [] := by
  refine ⟨fun col hcol => ?_, fun b hb => by cases hb⟩
  rcases List.mem_append.mp hcol with hcol | hcol
  · exact h.row col hcol
  · rw [List.mem_singleton.mp hcol]
    exact h.builder

theorem Fields.atEnd {P : UInt8 → Prop} {row : Row} {builder : Bytes} (h : Fields P row builder)
    (ch : UInt8) : ∀ col ∈ atEnd row builder ch, ∀ b ∈ col, P b := by
  rw [Csv.atEnd]
  split_ifs
  · exact h.column.row
  · exact h.row

def Quoted (quot : ℕ) (source : Bytes) : Prop := quot % 2 = 1 ∨ (34 : UInt8) ∈ source

theorem Quoted.octet {quot : ℕ} {b : UInt8} {source : Bytes} (h : Quoted quot source) :
    Quoted quot (b :: source) :=
  h.imp_right (List.mem_cons_of_mem b)

theorem readLoop_fields {P : UInt8 → Prop} {row : Row} {builder : Bytes} {quot : ℕ} {ch : UInt8}
    {source : Bytes} (h : Fields P row builder)
    (hquoted : Quoted quot source → ∀ b, b ≠ 34 → P b)
    (hplain : ∀ b, PlainOctet splitChar b → P b) :
    ∀ col ∈ (readLoop splitChar row builder quot ch source).1, ∀ b ∈ col, P b := by
  fun_induction readLoop splitChar row builder quot ch source with
  | case1 row builder quot ch => exact h.atEnd ch
  | case2 row builder quot ch b source hq hb ih =>
    exact ih (h.octet (hquoted (.inl hq) b hb)) fun hs => hquoted hs.octet
  | case3 row builder quot ch b source hq hb ih =>
    exact ih h fun _ => hquoted (.inl hq)
  | case4 row builder quot ch source hq ih =>
    exact ih h fun _ => hquoted (.inr List.mem_cons_self)
  | case5 row builder quot ch source hq hb ih =>
    exact ih h.column fun hs => hquoted hs.octet
  | case6 row builder quot => exact h.atEnd 13
  | case7 => exact h.column.row
  | case8 => exact h.column.row
  | case9 row builder quot ch b source hq hb hs hcr hlf ih =>
    exact ih (h.octet (hplain b ⟨hb, hs, hcr, hlf⟩)) fun hs => hquoted hs.octet

theorem readLoop_suffix (row : Row) (builder : Bytes) (quot : ℕ) (ch : UInt8) (source : Bytes) :
    (readLoop splitChar row builder quot ch source).2 <:+ source := by
  fun_induction readLoop splitChar row builder quot ch source with
  | case1 => exact List.suffix_refl _
  | case2 row builder quot ch b source hq hb ih => exact ih.trans (List.suffix_cons b source)
  | case3 row builder quot ch b source hq hb ih => exact ih.trans (List.suffix_cons b source)
  | case4 row builder quot ch source hq ih => exact ih.trans (List.suffix_cons 34 source)
  | case5 row builder quot ch source hq hb ih => exact ih.trans (List.suffix_cons splitChar source)
  | case6 => exact List.nil_suffix
  | case7 row builder quot ch hq b source =>
    exact (List.suffix_cons b source).trans (List.suffix_cons 13 (b :: source))
  | case8 row builder quot ch source => exact List.suffix_cons 10 source
  | case9 row builder quot ch b source hq hb hs hcr hlf ih =>
    exact ih.trans (List.suffix_cons b source)

theorem readLoop_cons_suffix (row : Row) (builder : Bytes) (quot : ℕ) (ch b : UInt8)
    (source : Bytes) : (readLoop splitChar row builder quot ch (b :: source)).2 <:+ source := by
  rw [readLoop.eq_def]
  dsimp only
  split_ifs
  · exact readLoop_suffix _ _ _ _ _
  · exact readLoop_suffix _ _ _ _ _
  · exact readLoop_suffix _ _ _ _ _
  · exact readLoop_suffix _ _ _ _ _
  · cases source with
    | nil => exact List.nil_suffix
    | cons c source => exact List.suffix_cons c source
  · exact List.suffix_refl source
  · exact readLoop_suffix _ _ _ _ _

/-- A call that gives a row takes an octet of the stream. -/
theorem read_shorter {source : Bytes} (h : (read splitChar source).1 ≠ []) :
    (read splitChar source).2.length < source.length := by
  cases source with
  | nil =>
    exfalso
    apply h
    simp [read, readLoop, atEnd]
  | cons b source => exact Nat.lt_succ_of_le (readLoop_cons_suffix [] [] 0 0 b source).length_le

theorem readCalls_fuel {fuel : ℕ} {source : Bytes} (hfuel : source.length < fuel) :
    readCalls splitChar fuel source = readRows splitChar source := by
  rw [readRows]
  generalize hfuel' : source.length + 1 = fuel'
  replace hfuel' : source.length < fuel' := by omega
  induction fuel generalizing fuel' source with
  | zero => cases hfuel
  | succ fuel ih =>
    cases fuel' with
    | zero => cases hfuel'
    | succ fuel' =>
      have hshorter := @read_shorter splitChar source
      rw [readCalls, readCalls]
      generalize read splitChar source = result at hshorter
      obtain ⟨row, rest⟩ := result
      dsimp only at hshorter ⊢
      split_ifs with hrow
      · rfl
      · have hrest := hshorter hrow
        rw [ih (by omega) fuel' (by omega)]

theorem readRows_eq (source : Bytes) :
    readRows splitChar source = if (read splitChar source).1 = [] then [] else
      (read splitChar source).1 :: readRows splitChar (read splitChar source).2 := by
  rw [readRows, readCalls]
  dsimp only
  split_ifs with hrow
  · rfl
  · rw [readCalls_fuel (read_shorter hrow)]

theorem readRows_writeRows (h : Allowed splitChar) (isCRLF : Bool) {rows : List Row}
    (hne : ∀ row ∈ rows, row ≠ []) (hrows : ∀ row ∈ rows, Plain splitChar row) :
    readRows splitChar (writeRows splitChar isCRLF rows) = rows := by
  induction rows with
  | nil =>
    rw [readRows_eq]
    simp [writeRows, read, readLoop, atEnd]
  | cons row rows ih =>
    have hread := read_write h isCRLF (hne row List.mem_cons_self) (hrows row List.mem_cons_self)
      (writeRows splitChar isCRLF rows)
    rw [readRows_eq, writeRows, List.flatMap_cons, ← writeRows, hread,
      if_neg (hne row List.mem_cons_self), ih (fun r hr => hne r (List.mem_cons_of_mem _ hr))
        (fun r hr => hrows r (List.mem_cons_of_mem _ hr))]

theorem readCalls_fields {P : UInt8 → Prop} {fuel : ℕ} {source : Bytes}
    (hquoted : (34 : UInt8) ∈ source → ∀ b, b ≠ 34 → P b)
    (hplain : ∀ b, PlainOctet splitChar b → P b) :
    ∀ row ∈ readCalls splitChar fuel source, ∀ col ∈ row, ∀ b ∈ col, P b := by
  induction fuel generalizing source with
  | zero =>
    intro row hrow
    cases hrow
  | succ fuel ih =>
    have hfields : ∀ col ∈ (read splitChar source).1, ∀ b ∈ col, P b := by
      apply readLoop_fields ⟨fun _ h => (List.not_mem_nil h).elim, fun _ h => (List.not_mem_nil h).elim⟩ _ hplain
      rintro (h | h)
      · cases h
      · exact hquoted h
    have hsuffix : (read splitChar source).2 <:+ source := readLoop_suffix _ _ _ _ _
    intro row hrow
    rw [readCalls] at hrow
    dsimp only at hrow
    split_ifs at hrow
    · cases hrow
    · rcases List.mem_cons.mp hrow with rfl | hrow
      · exact hfields
      · exact ih (fun h => hquoted (hsuffix.subset h)) row hrow

theorem quote_not_mem_writeLoop (h : Allowed splitChar) (first : Bool) {row : Row}
    (hrow : ∀ col ∈ row, ∀ b ∈ col, b ≠ 34) : (34 : UInt8) ∉ writeLoop splitChar first row := by
  induction row generalizing first with
  | nil => cases first <;> simp [writeLoop]
  | cons col row ih =>
    have hcol : (34 : UInt8) ∉ col := fun hb => hrow col List.mem_cons_self 34 hb rfl
    have hrest := ih false fun c hc => hrow c (List.mem_cons_of_mem _ hc)
    cases first with
    | false => simp [writeLoop, hcol, hrest, h.ne_quote.symm]
    | true => simp [writeLoop, hcol, hrest]

theorem quote_not_mem_writeRows (h : Allowed splitChar) (isCRLF : Bool) {rows : List Row}
    (hrows : ∀ row ∈ rows, ∀ col ∈ row, ∀ b ∈ col, b ≠ 34) :
    (34 : UInt8) ∉ writeRows splitChar isCRLF rows := by
  intro hmem
  obtain ⟨row, hrow, hmem⟩ := List.mem_flatMap.mp hmem
  rcases List.mem_append.mp hmem with hmem | hmem
  · exact quote_not_mem_writeLoop h true (hrows row hrow) hmem
  · cases isCRLF <;> simp at hmem

/-- Rows are read back from what was written for them exactly when their fields are plain. -/
theorem readRows_writeRows_iff {splitChar : UInt8} (h : Allowed splitChar) (isCRLF : Bool)
    {rows : List Row} (hne : ∀ row ∈ rows, row ≠ []) :
    readRows splitChar (writeRows splitChar isCRLF rows) = rows ↔
      ∀ row ∈ rows, Plain splitChar row := by
  constructor
  · intro heq
    have hquote : ∀ row ∈ rows, ∀ col ∈ row, ∀ b ∈ col, b ≠ 34 := by
      rw [← heq]
      exact readCalls_fields (fun _ _ hb => hb) (fun _ hb => hb.1)
    -- without a quote in the text nothing but plain octets gets into a field
    have htext := quote_not_mem_writeRows h isCRLF hquote
    rw [← heq]
    apply readCalls_fields _ fun _ hb => hb
    intro hmem
    exact absurd hmem htext
  · exact readRows_writeRows h isCRLF hne

theorem readRows_writeRows_words :
    readRows 59 (writeRows 59 true [[bytes "A1", [], bytes "C 1"], [[]]]) =
      [[bytes "A1", [], bytes "C 1"], [[]]] :=
  (readRows_writeRows_iff ⟨by decide, by decide, by decide⟩ true (by decide)).mpr (by
    unfold Plain PlainOctet
    decide +kernel)

/-- A comma in a field makes two fields of it. -/
theorem readRows_comma : ¬ ∀ (splitChar : UInt8), Allowed splitChar → ∀ (isCRLF : Bool)
    (rows : List Row), (∀ row ∈ rows, row ≠ []) →
      readRows splitChar (writeRows splitChar isCRLF rows) = rows := by
  intro h
  have hcomma := h 44 ⟨by decide, by decide, by decide⟩ true [[bytes "a,b"]] (by decide)
  revert hcomma
  decide +kernel

end Sese.Csv
