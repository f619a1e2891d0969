import Sese.Net.Dns.Encoder

/-!
# The octets of a package

What the encoder writes does not depend on the buffer: `wire` are the octets of a package
with an index. The encoder puts them at the start of a buffer that has room for them.
-/
namespace Sese

open Foundation

namespace DnsPackage

/-- A question or a record: its name and the octets behind the name. -/
structure Entry where
  name : Bytes
  fields : Bytes

def Question.entry (q : Question) : Entry where
  name := q.name
  fields := toBigEndian16 q.type.toNat ++ toBigEndian16 q.class_.toNat

def Answer.entry (a : Answer) : Entry where
  name := a.name
  fields := a.head ++ a.data

/-- The octets of some entries from position `base` on. -/
def wireEntries : List Entry → ℕ → Index → Except Fault (Bytes × Index)
  | [], _, index => .ok ([], index)
  | e :: es, base, index => do
    let (octets, index) ← nameBytes index e.name base
    let (rest, index) ← wireEntries es (base + octets.length + e.fields.length) index
    .ok (octets ++ (e.fields ++ rest), index)

/-- The octets of each section, from position `base` on. -/
def wireSections : List (List Entry) → ℕ → Index → Except Fault (List Bytes)
  | [], _, _ => .ok []
  | es :: sections, base, index => do
    let (octets, index) ← wireEntries es base index
    let rest ← wireSections sections (base + octets.length) index
    .ok (octets :: rest)

def entries (pkg : DnsPackage) : List (List Entry) :=
  [pkg.questions.map Question.entry, pkg.answers.map Answer.entry,
    pkg.authorities.map Answer.entry, pkg.additionals.map Answer.entry]

def sectionOctets (pkg : DnsPackage) (index : Index) : Except Fault (List Bytes) :=
  wireSections pkg.entries 12 index

def wire (pkg : DnsPackage) (index : Index) : Except Fault Bytes := do
  let sections ← wireSections pkg.entries 12 index
  .ok (pkg.header ++ sections.flatten)

/-- The length that `encode` gives to a package with these sections, the last of which it does
not count. -/
def countedLength (bss : List Bytes) : ℕ := 12 + bss.dropLast.flatten.length

def allSections (pkg : DnsPackage) : List Section :=
  pkg.sections ++ [encodeAnswers pkg.additionals]

structure Complete (pkg : DnsPackage) : Prop where
  answers : ∀ a ∈ pkg.answers, a.data.length = a.data_length.toNat
  authorities : ∀ a ∈ pkg.authorities, a.data.length = a.data_length.toNat
  additionals : ∀ a ∈ pkg.additionals, a.data.length = a.data_length.toNat

@[simp] theorem length_header (pkg : DnsPackage) : pkg.header.length = 12 := rfl

@[simp] theorem length_questionFields (q : Question) : q.entry.fields.length = 4 := rfl

@[simp] theorem length_answerHead (a : Answer) : a.head.length = 10 := rfl

theorem wire_eq_ok {pkg : DnsPackage} {index : Index} {W : Bytes} :
    wire pkg index = .ok W ↔
      ∃ bss, sectionOctets pkg index = .ok bss ∧ W = pkg.header ++ bss.flatten := by
  rw [wire, bind_eq_ok]
  constructor
  · rintro ⟨bss, hbss, hW⟩
    exact ⟨bss, hbss, (Except.ok.inj hW).symm⟩
  · rintro ⟨bss, hbss, rfl⟩
    exact ⟨bss, hbss, rfl⟩

theorem emit_room {base max : ℕ} {src pre rest : Bytes} {out : Sink} (hmax : max ≠ 0)
    (hbuf : out.buffer = pre ++ rest) (hpre : base + out.length = pre.length)
    (hroom : out.length + src.length ≤ max) (hrest : src.length ≤ rest.length) :
    emit base max src.length (.ok src) out =
      .ok (true, ⟨out.length + src.length, (pre ++ src) ++ rest.drop src.length⟩) := by
  rw [emit, if_neg hmax, if_neg (by omega), ok_bind, hbuf, store_left hpre hrest, ok_bind,
    List.append_assoc]

theorem emit_full {base max size : ℕ} {src : Except Fault Bytes} {out : Sink} (hmax : max ≠ 0)
    (hlen : out.length ≤ max) (hroom : max < out.length + size) :
    emit base max size src out = .ok (false, out) := by
  rw [emit, if_neg hmax, if_pos (by omega)]

theorem emit_count {base size : ℕ} {src : Except Fault Bytes} {out : Sink} :
    emit base 0 size src out = .ok (true, ⟨out.length + size, out.buffer⟩) := rfl

theorem emit_true {base max size : ℕ} {src : Except Fault Bytes} {out out' : Sink}
    (h : emit base max size src out = .ok (true, out')) : out'.length = out.length + size := by
  rw [emit] at h
  split_ifs at h
  · cases h
    rfl
  · cases h
  · obtain ⟨octets, -, h⟩ := bind_eq_ok.mp h
    obtain ⟨buffer, -, h⟩ := bind_eq_ok.mp h
    cases h
    rfl

section

variable {α : Type} {name : α → Bytes} {size : α → ℕ} {fields : α → Except Fault Bytes}
  {entry : α → Entry}

/-- The encoder of a section writes the entries `entry` of the items. -/
structure Writes (name : α → Bytes) (size : α → ℕ) (fields : α → Except Fault Bytes)
    (entry : α → Entry) (items : List α) : Prop where
  name : ∀ a ∈ items, (entry a).name = name a
  size : ∀ a ∈ items, (entry a).fields.length = size a
  fields : ∀ a ∈ items, fields a = .ok (entry a).fields

theorem Writes.tail {a : α} {items : List α} (h : Writes name size fields entry (a :: items)) :
    Writes name size fields entry items where
  name b hb := h.name b (List.mem_cons_of_mem _ hb)
  size b hb := h.size b (List.mem_cons_of_mem _ hb)
  fields b hb := h.fields b (List.mem_cons_of_mem _ hb)

theorem wireEntries_cons {e : Entry} {es : List Entry} {base : ℕ} {index index' : Index}
    {bs : Bytes} (h : wireEntries (e :: es) base index = .ok (bs, index')) :
    ∃ octets index₁ rest, nameBytes index e.name base = .ok (octets, index₁) ∧
      wireEntries es (base + octets.length + e.fields.length) index₁ = .ok (rest, index') ∧
      bs = octets ++ (e.fields ++ rest) := by
  rw [wireEntries] at h
  obtain ⟨⟨octets, index₁⟩, hname, h⟩ := bind_eq_ok.mp h
  obtain ⟨⟨rest, index₂⟩, hrest, h⟩ := bind_eq_ok.mp h
  cases h
  exact ⟨octets, index₁, rest, hname, hrest, rfl⟩

theorem encodeEntries_count {base : ℕ} {items : List α} {out : Sink} {index index' : Index}
    {bs : Bytes} (hw : Writes name size fields entry items)
    (h : wireEntries (items.map entry) (out.length + base) index = .ok (bs, index')) :
    encodeEntries name size fields base 0 items out index =
      .ok (true, ⟨out.length + bs.length, out.buffer⟩, index') := by
  induction items generalizing out index bs with
  | nil =>
    cases h
    rfl
  | cons a items ih =>
    obtain ⟨octets, index₁, rest, hname, hrest, rfl⟩ := wireEntries_cons h
    rw [hw.name a List.mem_cons_self] at hname
    have hsize := hw.size a List.mem_cons_self
    rw [encodeEntries, hname, ok_bind]
    dsimp only
    rw [emit_count, ok_bind]
    dsimp only
    rw [if_pos rfl, emit_count, ok_bind]
    dsimp only
    rw [if_pos rfl, ih hw.tail (by rw [← hrest, hsize]; congr 1; dsimp only; omega), ← hsize]
    simp only [List.length_append, Nat.add_assoc]

theorem encodeEntries_room {base max : ℕ} {items : List α} {out : Sink} {index index' : Index}
    {bs pre rest : Bytes} (hw : Writes name size fields entry items) (hmax : max ≠ 0)
    (h : wireEntries (items.map entry) (out.length + base) index = .ok (bs, index'))
    (hbuf : out.buffer = pre ++ rest) (hpre : base + out.length = pre.length)
    (hroom : out.length + bs.length ≤ max) (hrest : bs.length ≤ rest.length) :
    encodeEntries name size fields base max items out index =
      .ok (true, ⟨out.length + bs.length, (pre ++ bs) ++ rest.drop bs.length⟩, index') := by
  induction items generalizing out index bs pre rest with
  | nil =>
    cases h
    simp [encodeEntries, ← hbuf]
  | cons a items ih =>
    obtain ⟨octets, index₁, more, hname, hmore, rfl⟩ := wireEntries_cons h
    rw [hw.name a List.mem_cons_self] at hname
    have hsize := hw.size a List.mem_cons_self
    simp only [List.length_append] at hroom hrest
    rw [encodeEntries, hname, ok_bind]
    dsimp only
    rw [emit_room hmax hbuf hpre (by omega) (by omega), ok_bind]
    dsimp only
    rw [if_pos rfl, hw.fields a List.mem_cons_self, ← hsize,
      emit_room hmax rfl (by simp; omega) (by dsimp only; omega) (by rw [List.length_drop]; omega),
      ok_bind]
    dsimp only
    rw [if_pos rfl, ih hw.tail (by rw [← hmore]; congr 1; dsimp only; omega) rfl
      (by simp; omega) (by dsimp only; omega) (by simp only [List.length_drop]; omega)]
    simp only [List.append_assoc, List.length_append, List.drop_drop, Nat.add_assoc]

theorem encodeEntries_true {base max : ℕ} {items : List α} {out out' : Sink}
    {index index' index'' : Index} {bs : Bytes} (hw : Writes name size fields entry items)
    (h : wireEntries (items.map entry) (out.length + base) index = .ok (bs, index'))
    (hok : encodeEntries name size fields base max items out index = .ok (true, out', index'')) :
    out'.length = out.length + bs.length ∧ index'' = index' := by
  induction items generalizing out index bs with
  | nil =>
    cases h
    cases hok
    exact ⟨rfl, rfl⟩
  | cons a items ih =>
    obtain ⟨octets, index₁, rest, hname, hrest, rfl⟩ := wireEntries_cons h
    rw [hw.name a List.mem_cons_self] at hname
    have hsize := hw.size a List.mem_cons_self
    rw [encodeEntries, hname, ok_bind] at hok
    obtain ⟨⟨room, out₁⟩, hemit, hok⟩ := bind_eq_ok.mp hok
    cases room with
    | false => cases hok
    | true =>
      dsimp only at hemit hok
      rw [if_pos rfl] at hok
      obtain ⟨⟨room, out₂⟩, hemit', hok⟩ := bind_eq_ok.mp hok
      cases room with
      | false => cases hok
      | true =>
        dsimp only at hemit' hok
        rw [if_pos rfl] at hok
        have hlen := emit_true hemit
        have hlen' := emit_true hemit'
        have hnext : wireEntries (items.map entry) (out₂.length + base) index₁ =
            .ok (rest, index') := by
          rw [← hrest]
          congr 1
          omega
        obtain ⟨hout, hindex⟩ := ih hw.tail hnext hok
        refine ⟨?_, hindex⟩
        simp only [List.length_append]
        omega

end

/-- The section encoder `s` writes the entries `es`. -/
structure WritesSection (s : Section) (es : List Entry) : Prop where
  length : ∀ {base max : ℕ} {buffer bs : Bytes} {index index' index'' : Index} {out : Sink},
    wireEntries es base index = .ok (bs, index') →
    s base max buffer index = .ok (true, out, index'') → out.length = bs.length ∧ index'' = index'
  count : ∀ {base : ℕ} {buffer bs : Bytes} {index index' : Index},
    wireEntries es base index = .ok (bs, index') →
      s base 0 buffer index = .ok (true, ⟨bs.length, buffer⟩, index')
  room : ∀ {max : ℕ} {pre rest bs : Bytes} {index index' : Index}, max ≠ 0 →
    wireEntries es pre.length index = .ok (bs, index') → bs.length ≤ max →
    bs.length ≤ rest.length →
      s pre.length max (pre ++ rest) index =
        .ok (true, ⟨bs.length, (pre ++ bs) ++ rest.drop bs.length⟩, index')

theorem Writes.section {α : Type} {name : α → Bytes} {size : α → ℕ}
    {fields : α → Except Fault Bytes} {entry : α → Entry} {items : List α}
    (hw : Writes name size fields entry items) :
    WritesSection (fun base max buffer index =>
      encodeEntries name size fields base max items ⟨0, buffer⟩ index) (items.map entry) where
  length {base max buffer bs index index' index'' out} h hok := by
    have hlength := encodeEntries_true hw (by simpa using h) hok
    simpa using hlength
  count h := by
    rw [encodeEntries_count hw (by simpa using h), Nat.zero_add]
  room hmax h hroom hrest := by
    rw [encodeEntries_room hw hmax (by simpa using h) rfl (Nat.add_zero _)
      (by simpa using hroom) hrest, Nat.zero_add]

theorem questionWrites (questions : List Question) :
    Writes Question.name (fun _ => 4) Question.fields Question.entry questions where
  name _ _ := rfl
  size _ _ := rfl
  fields _ _ := rfl

theorem answerWrites {answers : List Answer}
    (h : ∀ a ∈ answers, a.data.length = a.data_length.toNat) :
    Writes Answer.name (fun a => 10 + a.data_length.toNat) Answer.fields Answer.entry answers where
  name _ _ := rfl
  size a ha := by rw [Answer.entry, List.length_append, length_answerHead, h a ha]
  fields a ha := by
    rw [Answer.fields, load, if_pos (by rw [h a ha, Nat.zero_add]), ok_bind, window, List.drop_zero,
      ← h a ha, List.take_length]
    rfl

theorem Complete.sections {pkg : DnsPackage} (h : pkg.Complete) :
    List.Forall₂ WritesSection pkg.allSections pkg.entries :=
  .cons (questionWrites _).section (.cons (answerWrites h.answers).section
    (.cons (answerWrites h.authorities).section
      (.cons (answerWrites h.additionals).section .nil)))

theorem sizeSub_of_le {a b : ℕ} (h : b ≤ a) (ha : a < 2 ^ 64) : sizeSub a b = a - b := by
  unfold sizeSub
  omega

theorem wireSections_cons {es : List Entry} {sections : List (List Entry)} {base : ℕ}
    {index : Index} {bss : List Bytes}
    (h : wireSections (es :: sections) base index = .ok bss) :
    ∃ octets index₁ rest, wireEntries es base index = .ok (octets, index₁) ∧
      wireSections sections (base + octets.length) index₁ = .ok rest ∧ bss = octets :: rest := by
  rw [wireSections] at h
  obtain ⟨⟨octets, index₁⟩, hoctets, h⟩ := bind_eq_ok.mp h
  obtain ⟨rest, hrest, h⟩ := bind_eq_ok.mp h
  cases h
  exact ⟨octets, index₁, rest, hoctets, hrest, rfl⟩

theorem WritesSection.step {max : ℕ} {s : Section} {es : List Entry} (hs : WritesSection s es)
    (ss : List Section) {pre rest octets : Bytes} {index index₁ : Index} (hmax : max < 2 ^ 64)
    (hpos : max ≠ 0) (h : wireEntries es pre.length index = .ok (octets, index₁))
    (hroom : pre.length + octets.length ≤ max) (hrest : octets.length ≤ rest.length) :
    encodeSections max (s :: ss) pre.length (pre ++ rest) index =
      encodeSections max ss (pre ++ octets).length ((pre ++ octets) ++ rest.drop octets.length)
        index₁ := by
  have hsub : (if max = 0 then max else sizeSub max pre.length) = max - pre.length := by
    rw [if_neg hpos, sizeSub_of_le (by omega) hmax]
  have hthis : s pre.length (max - pre.length) (pre ++ rest) index =
      .ok (true, ⟨octets.length, (pre ++ octets) ++ rest.drop octets.length⟩, index₁) := by
    by_cases hzero : max - pre.length = 0
    · -- nothing is written, and there is nothing to write
      have hnil : octets = [] := List.length_eq_zero_iff.mp (by omega)
      subst hnil
      rw [hzero, hs.count h]
      simp
    · exact hs.room hzero h (by omega) hrest
  rw [encodeSections, hsub, hthis, ok_bind]
  dsimp only
  rw [if_pos rfl, List.length_append]

theorem encodeSections_room {max : ℕ} {ss : List Section} {ess : List (List Entry)}
    (hs : List.Forall₂ WritesSection ss ess) (pre rest : Bytes) {bss : List Bytes} {index : Index}
    (hmax : max < 2 ^ 64) (hpos : max ≠ 0) (h : wireSections ess pre.length index = .ok bss)
    (hroom : pre.length + bss.flatten.length ≤ max) (hrest : bss.flatten.length ≤ rest.length) :
    ∃ index', encodeSections max ss pre.length (pre ++ rest) index =
      .ok (true, pre.length + bss.flatten.length,
        (pre ++ bss.flatten) ++ rest.drop bss.flatten.length, index') := by
  induction hs generalizing pre rest bss index with
  | nil =>
    cases h
    exact ⟨index, by simp [encodeSections]⟩
  | @cons s es ss ess hsec _ ih =>
    obtain ⟨octets, index₁, more, hoctets, hmore, rfl⟩ := wireSections_cons h
    rw [List.flatten_cons, List.length_append] at hroom hrest
    rw [← List.length_append] at hmore
    obtain ⟨index', hnext⟩ := ih (pre ++ octets) (rest.drop octets.length) hmore
      (by rw [List.length_append]; omega) (by rw [List.length_drop]; omega)
    refine ⟨index', ?_⟩
    rw [hsec.step ss hmax hpos hoctets (by omega) (by omega), hnext]
    simp only [List.flatten_cons, List.length_append, List.append_assoc, List.drop_drop,
      Nat.add_assoc]

theorem encodeSections_true {max : ℕ} {ss : List Section} {ess : List (List Entry)}
    (hs : List.Forall₂ WritesSection ss ess) {base n : ℕ} {buffer buffer' : Bytes}
    {bss : List Bytes} {index index' : Index} (h : wireSections ess base index = .ok bss)
    (hok : encodeSections max ss base buffer index = .ok (true, n, buffer', index')) :
    n = base + bss.flatten.length := by
  induction hs generalizing base buffer bss index with
  | nil =>
    cases h
    cases hok
    rfl
  | @cons s es ss ess hsec _ ih =>
    obtain ⟨octets, index₁, more, hoctets, hmore, rfl⟩ := wireSections_cons h
    rw [encodeSections] at hok
    obtain ⟨⟨encoded, out, index₂⟩, hthis, hok⟩ := bind_eq_ok.mp hok
    cases encoded with
    | false => cases hok
    | true =>
      dsimp only at hthis hok
      rw [if_pos rfl] at hok
      obtain ⟨hlength, rfl⟩ := hsec.length hoctets hthis
      rw [hlength] at hok
      rw [ih hmore hok, List.flatten_cons, List.length_append, Nat.add_assoc]

theorem encodeSections_append (max : ℕ) (ss ss' : List Section) (base : ℕ) (buffer : Bytes)
    (index : Index) : encodeSections max (ss ++ ss') base buffer index =
      encodeSections max ss base buffer index >>= fun r =>
        if r.1 then encodeSections max ss' r.2.1 r.2.2.1 r.2.2.2 else .ok r := by
  induction ss generalizing base buffer index with
  | nil => rfl
  | cons s ss ih =>
    rw [List.cons_append, encodeSections, encodeSections, bind_assoc]
    congr 1
    funext r
    obtain ⟨encoded, out, index'⟩ := r
    cases encoded with
    | false => rfl
    | true => exact ih _ _ _

theorem wireSections_concat {ess : List (List Entry)} {es : List Entry} {base : ℕ} {index : Index}
    {bss : List Bytes} (h : wireSections (ess ++ [es]) base index = .ok bss) :
    ∃ front last index₁ index₂, wireSections ess base index = .ok front ∧
      wireEntries es (base + front.flatten.length) index₁ = .ok (last, index₂) ∧
      bss = front ++ [last] := by
  induction ess generalizing base index bss with
  | nil =>
    obtain ⟨octets, index₁, rest, hoctets, hrest, rfl⟩ := wireSections_cons h
    cases hrest
    exact ⟨[], octets, index, index₁, rfl, hoctets, rfl⟩
  | cons es' ess ih =>
    obtain ⟨octets, index₁, rest, hoctets, hrest, rfl⟩ := wireSections_cons h
    obtain ⟨front, last, index₂, index₃, hfront, hlast, rfl⟩ := ih hrest
    refine ⟨octets :: front, last, index₂, index₃, ?_, ?_, rfl⟩
    · rw [wireSections, hoctets, ok_bind]
      dsimp only
      rw [hfront, ok_bind]
    · rwa [List.flatten_cons, List.length_append, ← Nat.add_assoc]

theorem wireEntries_eq_nil {answers : List Answer} {base : ℕ} {index index' : Index}
    (h : wireEntries (answers.map Answer.entry) base index = .ok ([], index')) : answers = [] := by
  cases answers with
  | nil => rfl
  | cons a answers =>
    obtain ⟨octets, index₁, rest, -, -, hnil⟩ := wireEntries_cons h
    have hlen := congrArg List.length hnil
    simp only [List.length_append, Answer.entry, length_answerHead, List.length_nil] at hlen
    omega

theorem sectionOctets_concat {pkg : DnsPackage} {index : Index} {bss : List Bytes}
    (h : sectionOctets pkg index = .ok bss) :
    ∃ front last, bss = front ++ [last] ∧ (last = [] ↔ pkg.additionals = []) := by
  have hconcat : wireSections ([pkg.questions.map Question.entry, pkg.answers.map Answer.entry,
    pkg.authorities.map Answer.entry] ++ [pkg.additionals.map Answer.entry]) 12 index = .ok bss := h
  obtain ⟨front, last, index₁, index₂, -, hlast, rfl⟩ := wireSections_concat hconcat
  refine ⟨front, last, rfl, ?_, ?_⟩
  · rintro rfl
    exact wireEntries_eq_nil hlast
  · intro hnil
    rw [hnil] at hlast
    cases hlast
    rfl

/-- Only a package without additional records has its full length. -/
theorem countedLength_eq_iff {pkg : DnsPackage} {index : Index} {bss : List Bytes}
    (h : sectionOctets pkg index = .ok bss) :
    countedLength bss = (pkg.header ++ bss.flatten).length ↔ pkg.additionals = [] := by
  obtain ⟨front, last, rfl, hlast⟩ := sectionOctets_concat h
  rw [← hlast, ← List.length_eq_zero_iff, countedLength, List.dropLast_concat]
  simp only [List.length_append, length_header, List.flatten_append, List.flatten_singleton]
  omega

theorem countedLength_le {pkg : DnsPackage} {index : Index} {bss : List Bytes}
    (h : sectionOctets pkg index = .ok bss) :
    countedLength bss ≤ (pkg.header ++ bss.flatten).length := by
  obtain ⟨front, last, rfl, -⟩ := sectionOctets_concat h
  rw [countedLength, List.dropLast_concat]
  simp only [List.length_append, length_header, List.flatten_append]
  omega

/-- Octets that are as many as the package has are counted whole if there are no additional records. -/
theorem take_counted_iff {pkg : DnsPackage} {index : Index} {bss : List Bytes} {W octets : Bytes}
    (hbss : sectionOctets pkg index = .ok bss) (hW : W = pkg.header ++ bss.flatten)
    (hlen : octets.length = W.length) :
    octets.take (countedLength bss) = W ↔ pkg.additionals = [] ∧ octets = W := by
  rw [← countedLength_eq_iff hbss, ← hW]
  constructor
  · intro htake
    have hcounted := countedLength_le hbss
    rw [← hW] at hcounted
    have hfull : countedLength bss = W.length := by
      have htaken := congrArg List.length htake
      rw [List.length_take] at htaken
      omega
    rw [hfull, List.take_of_length_le hlen.le] at htake
    exact ⟨hfull, htake⟩
  · rintro ⟨hfull, heq⟩
    rw [hfull, List.take_of_length_le hlen.le, heq]

section

variable {pkg : DnsPackage} {max n : ℕ} {buffer buffer' : Bytes} {index index' : Index}
  {bss : List Bytes}

theorem encodeBody_of_true (hc : pkg.Complete) (hbss : sectionOctets pkg index = .ok bss)
    (h : encodeSections max pkg.allSections 12 buffer index = .ok (true, n, buffer', index')) :
    encodeBody pkg max buffer index = .ok (true, countedLength bss, buffer', index') := by
  rw [allSections, encodeSections_append] at h
  obtain ⟨⟨encoded, length, buffer₁, index₁⟩, hfront, h⟩ := bind_eq_ok.mp h
  cases encoded with
  | false => cases h
  | true =>
    dsimp only at h
    rw [if_pos rfl, encodeSections] at h
    obtain ⟨⟨encoded, out, index₂⟩, hlast, h⟩ := bind_eq_ok.mp h
    cases encoded with
    | false => cases h
    | true =>
      cases h
      -- the sections in front are counted as they are
      have hconcat : wireSections ([pkg.questions.map Question.entry, pkg.answers.map Answer.entry,
        pkg.authorities.map Answer.entry] ++ [pkg.additionals.map Answer.entry]) 12 index =
        .ok bss := hbss
      obtain ⟨front, last, -, -, hwire, -, rfl⟩ := wireSections_concat hconcat
      have hlength := encodeSections_true (.cons (questionWrites _).section
        (.cons (answerWrites hc.answers).section
          (.cons (answerWrites hc.authorities).section .nil))) hwire hfront
      rw [encodeBody, hfront, ok_bind]
      dsimp only at hlast ⊢
      rw [if_pos rfl, hlast, ok_bind, countedLength, List.dropLast_concat, ← hlength]

theorem encodeBody_of_false
    (h : encodeSections max pkg.allSections 12 buffer index = .ok (false, n, buffer', index')) :
    encodeBody pkg max buffer index = .ok (false, n, buffer', index') := by
  rw [allSections, encodeSections_append] at h
  obtain ⟨⟨encoded, length, buffer₁, index₁⟩, hfront, h⟩ := bind_eq_ok.mp h
  rw [encodeBody, hfront, ok_bind]
  cases encoded with
  | false =>
    cases h
    rfl
  | true =>
    dsimp only at h ⊢
    rw [if_pos rfl, encodeSections] at h
    obtain ⟨⟨encoded, out, index₂⟩, hlast, h⟩ := bind_eq_ok.mp h
    cases encoded with
    | true => cases h
    | false =>
      cases h
      rw [if_pos rfl, hlast, ok_bind]

theorem encodeBody_of_error {fault : Fault}
    (h : encodeSections max pkg.allSections 12 buffer index = .error fault) :
    encodeBody pkg max buffer index = .error fault := by
  rw [allSections, encodeSections_append] at h
  rw [encodeBody]
  cases hfront : encodeSections max pkg.sections 12 buffer index with
  | error fault' =>
    rw [hfront] at h
    exact h
  | ok r =>
    obtain ⟨encoded, length, buffer₁, index₁⟩ := r
    rw [hfront, ok_bind] at h
    cases encoded with
    | false => cases h
    | true =>
      dsimp only at h
      rw [if_pos rfl, encodeSections] at h
      rw [ok_bind]
      dsimp only
      rw [if_pos rfl]
      cases hlast : encodeAnswers pkg.additionals length (if max = 0 then max else sizeSub max length)
          buffer₁ index₁ with
      | error fault' =>
        rw [hlast] at h
        exact h
      | ok r =>
        rw [hlast, ok_bind] at h
        dsimp only at h
        split_ifs at h
        cases h

end

theorem encode_header {pkg : DnsPackage} {index : Index} {buffer : Bytes} {capacity : ℕ}
    (hcapacity : 12 ≤ capacity) (hbuf : capacity ≤ buffer.length) :
    encode pkg buffer capacity index =
      encodeBody pkg capacity (pkg.header ++ buffer.drop 12) index := by
  have hstore : store buffer 0 pkg.header = .ok (pkg.header ++ buffer.drop 12) :=
    store_left (List.length_nil).symm (by rw [length_header]; omega)
  rw [encode, Index.clearPos, if_neg (by omega), if_neg (by omega), hstore, ok_bind]

theorem encode_room {pkg : DnsPackage} (hc : pkg.Complete) {index : Index} {W buffer : Bytes}
    {bss : List Bytes} {length : ℕ} (hbss : sectionOctets pkg index = .ok bss)
    (hW : W = pkg.header ++ bss.flatten) (hlen : length < 2 ^ 64) (hroom : W.length ≤ length)
    (hbuf : length ≤ buffer.length) :
    ∃ index', encode pkg buffer length index =
      .ok (true, countedLength bss, W ++ buffer.drop W.length, index') := by
  subst hW
  rw [List.length_append, length_header] at hroom ⊢
  obtain ⟨index', hsections⟩ := encodeSections_room hc.sections pkg.header (buffer.drop 12) hlen
    (by omega) hbss (by rw [length_header]; omega) (by rw [List.length_drop]; omega)
  refine ⟨index', ?_⟩
  rw [encode_header (by omega) hbuf, encodeBody_of_true hc hbss hsections]
  simp [List.drop_drop]

end DnsPackage

end Sese
