import Sese.Net.Dns.Compression
import Sese.Net.Dns.Realign

/-!
# DNS messages, from the encoder to the decoder

A package is encoded with its own index or with an empty one, and decoded again.
-/
namespace Sese

open Foundation

namespace DnsPackage

open Index

def records (pkg : DnsPackage) : List Answer := pkg.answers ++ (pkg.authorities ++ pkg.additionals)

/-- The records that are in the length that `encode` gives to a package. -/
def countedRecords (pkg : DnsPackage) : List Answer := pkg.answers ++ pkg.authorities

def names (pkg : DnsPackage) : List Bytes :=
  pkg.questions.map (·.name) ++ pkg.answers.map (·.name) ++ pkg.authorities.map (·.name) ++
    pkg.additionals.map (·.name)

/-- A package that the header can announce, with names that can be spelled. -/
structure WellFormed (pkg : DnsPackage) : Prop where
  questions : pkg.questions.length ≤ 65535
  answers : pkg.answers.length ≤ 65535
  authorities : pkg.authorities.length ≤ 65535
  additionals : pkg.additionals.length ≤ 65535
  names : ∀ name ∈ pkg.names, ValidName name
  complete : pkg.Complete

theorem records_eq (pkg : DnsPackage) : pkg.records = pkg.countedRecords ++ pkg.additionals :=
  (List.append_assoc _ _ _).symm

theorem mem_records_of_counted {pkg : DnsPackage} {a : Answer} (ha : a ∈ pkg.countedRecords) :
    a ∈ pkg.records := by
  rw [records_eq]
  exact List.mem_append_left _ ha

theorem mem_names_question {pkg : DnsPackage} {q : Question} (hq : q ∈ pkg.questions) :
    q.name ∈ pkg.names := by
  simp only [names, List.mem_append, List.mem_map]
  exact .inl (.inl (.inl ⟨q, hq, rfl⟩))

theorem mem_names_record {pkg : DnsPackage} {a : Answer} (ha : a ∈ pkg.records) :
    a.name ∈ pkg.names := by
  simp only [records, List.mem_append] at ha
  simp only [names, List.mem_append, List.mem_map]
  rcases ha with ha | ha | ha
  · exact .inl (.inl (.inr ⟨a, ha, rfl⟩))
  · exact .inl (.inr ⟨a, ha, rfl⟩)
  · exact .inr ⟨a, ha, rfl⟩

theorem WellFormed.name_ne_nil {pkg : DnsPackage} (h : WellFormed pkg) {name : Bytes}
    (hname : name ∈ pkg.names) : name ≠ [] := by
  obtain ⟨ls, hls⟩ := h.names name hname
  exact hls.name_ne_nil

theorem Complete.record {pkg : DnsPackage} (h : pkg.Complete) {a : Answer} (ha : a ∈ pkg.records) :
    a.data.length = a.data_length.toNat := by
  simp only [records, List.mem_append] at ha
  rcases ha with ha | ha | ha
  · exact h.answers a ha
  · exact h.authorities a ha
  · exact h.additionals a ha

theorem wireEntries_split {es es' : List Entry} {base : ℕ} {index index' : Index} {bs : Bytes}
    (h : wireEntries (es ++ es') base index = .ok (bs, index')) :
    ∃ bs₁ index₁ bs₂, wireEntries es base index = .ok (bs₁, index₁) ∧
      wireEntries es' (base + bs₁.length) index₁ = .ok (bs₂, index') ∧ bs = bs₁ ++ bs₂ := by
  induction es generalizing base index bs with
  | nil => exact ⟨[], index, bs, rfl, h, rfl⟩
  | cons e es ih =>
    obtain ⟨octets, index₁, rest, hname, hrest, rfl⟩ := wireEntries_cons h
    obtain ⟨bs₁, index₂, bs₂, h₁, h₂, rfl⟩ := ih hrest
    refine ⟨octets ++ (e.fields ++ bs₁), index₂, bs₂, ?_, ?_, ?_⟩
    · rw [wireEntries, hname, ok_bind]
      dsimp only
      rw [h₁, ok_bind]
    · rw [← h₂]
      congr 1
      simp only [List.length_append]
      omega
    · simp only [List.append_assoc]

/-- What is written for the questions, the counted records and the others is written section after
section. -/
theorem sectionOctets_of_entries {pkg : DnsPackage} {index index₁ index₂ index₃ : Index}
    {bq br last : Bytes}
    (hq : wireEntries (pkg.questions.map Question.entry) 12 index = .ok (bq, index₁))
    (hr : wireEntries (pkg.countedRecords.map Answer.entry) (12 + bq.length) index₁ =
      .ok (br, index₂))
    (hlast : wireEntries (pkg.additionals.map Answer.entry) (12 + bq.length + br.length) index₂ =
      .ok (last, index₃)) :
    ∃ bss, sectionOctets pkg index = .ok (bss ++ [last]) ∧ bss.flatten = bq ++ br := by
  rw [countedRecords, List.map_append] at hr
  obtain ⟨ba, index₄, bn, ha, hn, rfl⟩ := wireEntries_split hr
  refine ⟨[bq, ba, bn], ?_, by simp⟩
  rw [List.length_append, ← Nat.add_assoc] at hlast
  rw [sectionOctets, entries, wireSections, hq, ok_bind]
  dsimp only
  rw [wireSections, ha, ok_bind]
  dsimp only
  rw [wireSections, hn, ok_bind]
  dsimp only
  rw [wireSections, hlast, ok_bind]
  rfl

theorem andThen_eq_some {α β : Type} {x : Except Fault (Option α)}
    {f : α → Except Fault (Option β)} {b : β} :
    andThen x f = .ok (some b) ↔ ∃ a, x = .ok (some a) ∧ f a = .ok (some b) := by
  cases x with
  | error e => simp [andThen]
  | ok r =>
    cases r with
    | none => simp [andThen]
    | some a => simp [andThen]

variable {W : Bytes}

theorem decodeAnswers_add (octet : Octets) (length n m pos : ℕ) :
    decodeAnswers octet length (n + m) pos =
      andThen (decodeAnswers octet length n pos) fun r =>
        (decodeAnswers octet length m r.2).map (Option.map fun r' => (r.1 ++ r'.1, r'.2)) := by
  induction n generalizing pos with
  | zero =>
    rw [Nat.zero_add]
    change _ = (decodeAnswers octet length m pos).map (Option.map fun r' => (r'.1, r'.2))
    cases decodeAnswers octet length m pos with
    | error x => rfl
    | ok r =>
      cases r with
      | none => rfl
      | some r => rfl
  | succ n ih =>
    rw [Nat.succ_add, decodeAnswers, decodeAnswers, andThen_bind]
    congr 1
    funext w
    dsimp only
    split_ifs with hname hlen
    · rfl
    · rfl
    · simp only [andThen_bind]
      congr! 8
      split_ifs with hdata
      · rfl
      · simp only [andThen_bind, andThen_map, ih]
        congr! 2
        cases decodeAnswers octet length n _ with
        | error x => rfl
        | ok r =>
          cases r with
          | none => rfl
          | some r =>
            simp only [andThen, ok_bind]
            cases decodeAnswers octet length m r.2 with
            | error x => rfl
            | ok r' =>
              cases r' with
              | none => rfl
              | some r' => rfl

theorem length_decodeAnswers {octet : Octets} {length n pos p : ℕ} {as : List Answer}
    (h : decodeAnswers octet length n pos = .ok (some (as, p))) : as.length = n := by
  induction n generalizing pos as with
  | zero =>
    cases h
    rfl
  | succ n ih =>
    rw [decodeAnswers] at h
    obtain ⟨⟨name, e⟩, -, h⟩ := bind_eq_ok.mp h
    dsimp only at h
    split_ifs at h
    · cases h
    · cases h
    obtain ⟨type, -, h⟩ := bind_eq_ok.mp h
    obtain ⟨class_, -, h⟩ := bind_eq_ok.mp h
    obtain ⟨ttl, -, h⟩ := bind_eq_ok.mp h
    obtain ⟨data_length, -, h⟩ := bind_eq_ok.mp h
    split_ifs at h
    · cases h
    obtain ⟨data, -, h⟩ := bind_eq_ok.mp h
    obtain ⟨rest, hrest, h⟩ := bind_eq_ok.mp h
    cases rest with
    | none => cases h
    | some rest =>
      cases h
      rw [List.length_cons, ih hrest]

theorem decodeAnswers_append_iff {octet : Octets} {length pos : ℕ} {as as' : List Answer} :
    (∃ p, decodeAnswers octet length (as ++ as').length pos = .ok (some (as ++ as', p))) ↔
      ∃ p p', decodeAnswers octet length as.length pos = .ok (some (as, p)) ∧
        decodeAnswers octet length as'.length p = .ok (some (as', p')) := by
  rw [List.length_append, decodeAnswers_add]
  constructor
  · rintro ⟨p, h⟩
    obtain ⟨⟨bs, p₁⟩, hbs, h⟩ := andThen_eq_some.mp h
    dsimp only at h
    cases hmore : decodeAnswers octet length as'.length p₁ with
    | error x =>
      rw [hmore] at h
      cases h
    | ok r =>
      cases r with
      | none =>
        rw [hmore] at h
        cases h
      | some r =>
        rw [hmore] at h
        simp only [Except.map, Option.map_some, Except.ok.injEq, Option.some.injEq,
          Prod.mk.injEq] at h
        obtain ⟨rfl, hr⟩ := List.append_inj h.1 (length_decodeAnswers hbs)
        exact ⟨p₁, r.2, hbs, by rw [hmore, ← hr]⟩
  · rintro ⟨p, p', h, h'⟩
    refine ⟨p', ?_⟩
    rw [h]
    simp only [andThen, ok_bind, h', Except.map, Option.map_some]

theorem decode_header {pkg : DnsPackage} (h : WellFormed pkg) {bs : Bytes}
    (hW : W = pkg.header ++ bs) :
    decode (datagram W) W.length =
      andThen (decodeQuestions (datagram W) W.length pkg.questions.length 12) fun qs =>
      andThen (decodeAnswers (datagram W) W.length pkg.answers.length qs.2) fun as =>
      andThen (decodeAnswers (datagram W) W.length pkg.authorities.length as.2) fun ns =>
      andThen (decodeAnswers (datagram W) W.length pkg.additionals.length ns.2) fun ar =>
      .ok (some { pkg with questions := qs.1, answers := as.1, authorities := ns.1,
                           additionals := ar.1 }) := by
  have hlen : ¬ W.length < 12 := by
    rw [hW, List.length_append, length_header]
    omega
  have hcat : W = toBigEndian16 pkg.id.toNat ++ (toBigEndian16 pkg.flags.toNat ++
      (toBigEndian16 pkg.questions.length ++ (toBigEndian16 pkg.answers.length ++
        (toBigEndian16 pkg.authorities.length ++
          (toBigEndian16 pkg.additionals.length ++ bs))))) := by
    rw [hW, header]
    simp only [List.append_assoc]
  have hcount : ∀ (pre post : Bytes) {n i : ℕ}, n ≤ 65535 → W = pre ++ (toBigEndian16 n ++ post) →
      i = pre.length → read16 (datagram W) i = .ok (.ofNat n) ∧ (UInt16.ofNat n).toNat = n := by
    intro pre post n i hn hcat hi
    have hnat : (UInt16.ofNat n).toNat = n := by
      rw [UInt16.toNat_ofNat']
      omega
    exact ⟨read16_append pre post (by rw [hcat, hnat]) hi, hnat⟩
  have hid : read16 (datagram W) 0 = .ok pkg.id := read16_append [] _ hcat rfl
  have hflags : read16 (datagram W) 2 = .ok pkg.flags :=
    read16_append (toBigEndian16 pkg.id.toNat) _ hcat rfl
  obtain ⟨hq, hqn⟩ := hcount (toBigEndian16 pkg.id.toNat ++ toBigEndian16 pkg.flags.toNat) _
    h.questions hcat (i := 4) rfl
  obtain ⟨ha, han⟩ := hcount (toBigEndian16 pkg.id.toNat ++ (toBigEndian16 pkg.flags.toNat ++
    toBigEndian16 pkg.questions.length)) _ h.answers hcat (i := 6) rfl
  obtain ⟨hn, hnn⟩ := hcount (toBigEndian16 pkg.id.toNat ++ (toBigEndian16 pkg.flags.toNat ++
    (toBigEndian16 pkg.questions.length ++ toBigEndian16 pkg.answers.length))) _
    h.authorities hcat (i := 8) rfl
  obtain ⟨hr, hrn⟩ := hcount (toBigEndian16 pkg.id.toNat ++ (toBigEndian16 pkg.flags.toNat ++
    (toBigEndian16 pkg.questions.length ++ (toBigEndian16 pkg.answers.length ++
      toBigEndian16 pkg.authorities.length)))) _ h.additionals hcat (i := 10) rfl
  rw [decode, if_neg hlen, hid, ok_bind, hflags, ok_bind, hq, ok_bind, ha, ok_bind, hn, ok_bind, hr,
    ok_bind, hqn, han, hnn, hrn]

/-- A package is read back if its questions and then all its records are. -/
theorem decode_eq_some_iff {pkg : DnsPackage} (h : WellFormed pkg) {bs : Bytes}
    (hW : W = pkg.header ++ bs) :
    decode (datagram W) W.length = .ok (some pkg) ↔
      ∃ p p', decodeQuestions (datagram W) W.length pkg.questions.length 12 =
          .ok (some (pkg.questions, p)) ∧
        decodeAnswers (datagram W) W.length pkg.records.length p = .ok (some (pkg.records, p')) := by
  have hrecords : ∀ p, (∃ p', decodeAnswers (datagram W) W.length pkg.records.length p =
      .ok (some (pkg.records, p'))) ↔ ∃ p₁ p₂ p₃,
        decodeAnswers (datagram W) W.length pkg.answers.length p = .ok (some (pkg.answers, p₁)) ∧
        decodeAnswers (datagram W) W.length pkg.authorities.length p₁ =
          .ok (some (pkg.authorities, p₂)) ∧
        decodeAnswers (datagram W) W.length pkg.additionals.length p₂ =
          .ok (some (pkg.additionals, p₃)) := by
    intro p
    rw [records, decodeAnswers_append_iff]
    constructor
    · rintro ⟨p₁, p', h₁, h'⟩
      obtain ⟨p₂, p₃, h₂, h₃⟩ := decodeAnswers_append_iff.mp ⟨p', h'⟩
      exact ⟨p₁, p₂, p₃, h₁, h₂, h₃⟩
    · rintro ⟨p₁, p₂, p₃, h₁, h₂, h₃⟩
      obtain ⟨p', h'⟩ := decodeAnswers_append_iff.mpr ⟨p₂, p₃, h₂, h₃⟩
      exact ⟨p₁, p', h₁, h'⟩
  rw [decode_header h hW]
  simp only [hrecords, exists_and_left]
  constructor
  · intro hdec
    obtain ⟨⟨qs, p⟩, hqs, hdec⟩ := andThen_eq_some.mp hdec
    obtain ⟨⟨as, p₁⟩, has, hdec⟩ := andThen_eq_some.mp hdec
    obtain ⟨⟨ns, p₂⟩, hns, hdec⟩ := andThen_eq_some.mp hdec
    obtain ⟨⟨ar, p₃⟩, har, hdec⟩ := andThen_eq_some.mp hdec
    obtain ⟨hqs', has', hns', har'⟩ : qs = pkg.questions ∧ as = pkg.answers ∧
        ns = pkg.authorities ∧ ar = pkg.additionals := by
      cases pkg
      cases hdec
      exact ⟨rfl, rfl, rfl, rfl⟩
    subst hqs' has' hns' har'
    exact ⟨p, hqs, p₁, has, p₂, hns, p₃, har⟩
  · rintro ⟨p, hqs, p₁, has, p₂, hns, p₃, har⟩
    exact andThen_eq_some.mpr ⟨_, hqs, andThen_eq_some.mpr ⟨_, has, andThen_eq_some.mpr
      ⟨_, hns, andThen_eq_some.mpr ⟨_, har, rfl⟩⟩⟩⟩

/-- In every buffer that is large enough `encode` succeeds, and what it says it has written is decoded
to the package. -/
def RoundTrips (pkg : DnsPackage) (index : Index) : Prop :=
  ∃ W, wire pkg index = .ok W ∧ ∀ (buffer : Bytes) (length : ℕ), W.length ≤ length →
    length ≤ buffer.length → length < 2 ^ 64 →
      ∃ n buffer' index', encode pkg buffer length index = .ok (true, n, buffer', index') ∧
        decode (within (fun i => buffer'.getD i 0) n) n = .ok (some pkg)

/-- No name of a question is compressed and every name of a record is, but for that of a blank
record at the end; the suffixes of the names can be numbered, and there are no additional records. -/
structure Aligned (pkg : DnsPackage) : Prop where
  labels : (pkg.names.map labelCount).sum < 65536
  questions : (pkg.questions.map fun q => lastLabel q.name).Nodup
  records : RecordsAligned (pkg.questions.map fun q => lastLabel q.name) pkg.records
  additionals : pkg.additionals = []

/-- A package makes the round trip exactly if its octets without those of the last section are
decoded to it. -/
theorem roundTrips_iff {pkg : DnsPackage} (hc : pkg.Complete) {index : Index} {bss : List Bytes}
    {last : Bytes} (hbss : sectionOctets pkg index = .ok (bss ++ [last]))
    (hW : W = pkg.header ++ bss.flatten) (hlen : (W ++ last).length < 2 ^ 64) :
    RoundTrips pkg index ↔ decode (datagram W) W.length = .ok (some pkg) := by
  have hwithin : ∀ rest : Bytes,
      within (fun i => (W ++ rest).getD i 0) W.length = datagram W := by
    intro rest
    funext i
    rw [datagram]
    by_cases hi : i < W.length
    · rw [within_of_lt hi, within_of_lt hi, List.getD_eq_getElem?_getD,
        List.getElem?_append_left hi, ← List.getD_eq_getElem?_getD]
    · rw [within_of_le (not_lt.mp hi), within_of_le (not_lt.mp hi)]
  have hcat : W ++ last = pkg.header ++ (bss ++ [last]).flatten := by
    rw [hW, List.flatten_append, List.flatten_singleton, List.append_assoc]
  have hcounted : countedLength (bss ++ [last]) = W.length := by
    rw [countedLength, List.dropLast_concat, hW, List.length_append, length_header]
  have hwire : wire pkg index = .ok (W ++ last) := wire_eq_ok.mpr ⟨_, hbss, hcat⟩
  constructor
  · rintro ⟨W', hW', hall⟩
    obtain rfl := Except.ok.inj (hwire.symm.trans hW')
    have hbuf : (W ++ last).length ≤ (List.replicate (W ++ last).length (0 : UInt8)).length := by
      rw [List.length_replicate]
    obtain ⟨n, buffer', index', hencode, hdecode⟩ := hall _ _ (Nat.le_refl _) hbuf hlen
    obtain ⟨index'', hroom⟩ := encode_room hc hbss hcat hlen (Nat.le_refl _) hbuf
    rw [hroom] at hencode
    cases hencode
    rwa [hcounted, List.append_assoc, hwithin] at hdecode
  · intro hdecode
    refine ⟨_, hwire, ?_⟩
    intro buffer length hn hbuf hlength
    obtain ⟨index', hroom⟩ := encode_room hc hbss hcat hlength hn hbuf
    rw [hcounted] at hroom
    exact ⟨_, _, index', hroom, by rwa [List.append_assoc, hwithin]⟩

theorem wire_empty {pkg : DnsPackage} (h : WellFormed pkg) :
    ∃ bss last bq br, sectionOctets pkg .empty = .ok (bss ++ [last]) ∧ bss.flatten = bq ++ br ∧
      Written pkg.header (pkg.questions.map Question.entry) bq
        ((pkg.questions.map Question.entry).map fun _ => true) ∧
      Written (pkg.header ++ bq) (pkg.countedRecords.map Answer.entry) br
        ((pkg.countedRecords.map Answer.entry).map fun _ => true) := by
  have hquestions : ∀ e ∈ pkg.questions.map Question.entry, ValidName e.name := by
    intro e he
    obtain ⟨q, hq, rfl⟩ := List.mem_map.mp he
    exact h.names _ (mem_names_question hq)
  have hrecords : ∀ as : List Answer, as ⊆ pkg.records →
      ∀ e ∈ as.map Answer.entry, ValidName e.name := by
    intro as has e he
    obtain ⟨a, ha, rfl⟩ := List.mem_map.mp he
    exact h.names _ (mem_names_record (has ha))
  obtain ⟨bq, hbq, hq⟩ := written_empty hquestions pkg.header
  obtain ⟨br, hbr, hr⟩ := written_empty (hrecords pkg.countedRecords fun _ => mem_records_of_counted)
    (pkg.header ++ bq)
  have hsub : pkg.additionals ⊆ pkg.records := by
    rw [records_eq]
    exact List.subset_append_right _ _
  obtain ⟨last, hlast, -⟩ := written_empty (hrecords pkg.additionals hsub) (pkg.header ++ bq ++ br)
  obtain ⟨bss, hbss, hflat⟩ := sectionOctets_of_entries (hbq 12) (hbr _) (hlast _)
  exact ⟨bss, last, bq, br, hbss, hflat, hq, hr⟩

theorem decodeAnswers_end {n : ℕ} {r : Option (List Answer × ℕ)} :
    decodeAnswers (datagram W) W.length (n + 1) W.length ≠ .ok r := by
  have hover : datagram W (W.length + 0) = .error .overread := by
    rw [datagram, within_of_le (Nat.le_add_right _ _)]
  intro h
  rw [decodeAnswers, decodeWords, nameFuel, wordsLoop, hover] at h
  cases h

/-- Without an index a package is decoded to itself exactly if it has no records, or a blank one that
is counted. -/
theorem decode_empty_iff {pkg : DnsPackage} (h : WellFormed pkg) {bq br : Bytes}
    (hq : Written pkg.header (pkg.questions.map Question.entry) bq
      ((pkg.questions.map Question.entry).map fun _ => true))
    (hr : Written (pkg.header ++ bq) (pkg.countedRecords.map Answer.entry) br
      ((pkg.countedRecords.map Answer.entry).map fun _ => true))
    (hW : W = pkg.header ++ (bq ++ br)) (hlen : W.length < 16384) :
    decode (datagram W) W.length = .ok (some pkg) ↔
      pkg.additionals = [] ∧ pkg.records.length ≤ 1 ∧ ∀ a ∈ pkg.records, a.Blank := by
  have hnames : ∀ a ∈ pkg.countedRecords, a.name ≠ [] := by
    intro a ha
    exact h.name_ne_nil (mem_names_record (mem_records_of_counted ha))
  have hquestions := decodeQuestions_written
    (fun q hq => h.name_ne_nil (mem_names_question hq)) hq (by simp) hW hlen
  rw [length_header] at hquestions
  have hdata : ∀ a ∈ pkg.countedRecords, a.data.length = a.data_length.toNat := by
    intro a ha
    exact h.complete.record (mem_records_of_counted ha)
  rw [decode_eq_some_iff h hW, hquestions, records_eq]
  generalize pkg.countedRecords = records at hr hnames hdata
  generalize pkg.additionals = additionals
  have hW' : W = (pkg.header ++ bq) ++ br := by rw [hW, List.append_assoc]
  cases records with
  | nil =>
    cases hr
    rw [List.append_nil] at hW'
    have hstart : 12 + bq.length = W.length := by
      rw [hW', List.length_append, length_header]
    cases additionals with
    | nil => simp [decodeAnswers]
    | cons a as =>
      constructor
      · rintro ⟨p, p', heq, hdec⟩
        cases heq
        rw [List.nil_append, List.length_cons, ← hW'] at hdec
        exact absurd hdec decodeAnswers_end
      · rintro ⟨hnil, -⟩
        cases hnil
  | cons a as =>
    rw [List.map_cons, List.map_cons] at hr
    cases hr with
    | @cons _ octets rest _ _ _ _ hname hrest =>
      have hcat : W = (pkg.header ++ bq) ++ (octets ++ (a.entry.fields ++ rest)) := hW'
      constructor
      · rintro ⟨p, p', heq, hdec⟩
        cases heq
        obtain ⟨hblank, hzero⟩ :=
          decodeAnswers_literal (hdata a List.mem_cons_self) hname hcat hlen hdec
        obtain ⟨rfl, rfl⟩ := List.append_eq_nil_iff.mp (List.length_eq_zero_iff.mp hzero)
        exact ⟨rfl, Nat.le_refl 1, by simpa using hblank⟩
      · rintro ⟨rfl, hone, hblank⟩
        obtain rfl : as = [] := List.length_eq_zero_iff.mp (by simpa using hone)
        obtain ⟨p, hp⟩ := decodeAnswers_blank rest (hnames a List.mem_cons_self)
          (hblank a List.mem_cons_self) (hdata a List.mem_cons_self) hname hcat hlen
        exact ⟨_, p, rfl, hp⟩

theorem literals_of_nodup {es : List Entry} {seen : List (Option Bytes)}
    (hnodup : (es.map fun e => lastLabel e.name).Nodup)
    (hseen : ∀ e ∈ es, lastLabel e.name ∉ seen) : ∀ lit ∈ literals seen es, lit = true := by
  induction es generalizing seen with
  | nil =>
    intro lit hlit
    cases hlit
  | cons e es ih =>
    rw [List.map_cons, List.nodup_cons] at hnodup
    intro lit hlit
    rcases List.mem_cons.mp hlit with rfl | hlit
    · exact decide_eq_true (hseen e List.mem_cons_self)
    · apply ih hnodup.2 _ lit hlit
      intro e' he' hmem
      rcases List.mem_cons.mp hmem with heq | hmem
      · exact hnodup.1 (List.mem_map.mpr ⟨e', he', heq⟩)
      · exact hseen e' (List.mem_cons_of_mem _ he') hmem

theorem mem_seenAfter {es : List Entry} {seen : List (Option Bytes)} {x : Option Bytes} :
    x ∈ seenAfter seen es ↔ x ∈ seen ∨ x ∈ es.map fun e => lastLabel e.name := by
  induction es generalizing seen with
  | nil => simp [seenAfter]
  | cons e es ih =>
    rw [seenAfter, ih, List.map_cons, List.mem_cons, List.mem_cons, or_assoc, or_left_comm]

theorem RecordsAligned.mono {as : List Answer} {seen seen' : List (Option Bytes)}
    (h : RecordsAligned seen as) (hsub : seen ⊆ seen') : RecordsAligned seen' as := by
  induction as generalizing seen seen' with
  | nil => trivial
  | cons a as ih =>
    rcases h with ⟨hseen, h⟩ | h
    · exact .inl ⟨hsub hseen, ih h (List.cons_subset_cons _ hsub)⟩
    · exact .inr h

/-- The built index knows the names of the package, and gives different suffixes different
numbers. -/
theorem buildIndex_knows {pkg : DnsPackage} (h : WellFormed pkg)
    (hlabels : (pkg.names.map labelCount).sum < 65536) :
    (buildIndex pkg).Fresh ∧ (buildIndex pkg).Distinct ∧
    (∀ es : List Entry, (∀ e ∈ es, e.name ∈ pkg.names) → KnowsEntries (buildIndex pkg) es) := by
  have hcounts : ∀ name ∈ pkg.names, ∃ ls, Spells ls name ∧ ls.length < 65536 := by
    intro name hname
    obtain ⟨ls, hls⟩ := h.names name hname
    refine ⟨ls, hls, ?_⟩
    have hle := List.le_sum_of_mem (List.mem_map_of_mem hname : labelCount name ∈ _)
    rw [labelCount, hls.split_eq] at hle
    exact Nat.lt_of_le_of_lt hle hlabels
  obtain ⟨hfresh, hnumbers⟩ := build_knows hcounts
  refine ⟨hfresh, build_distinct hlabels, ?_⟩
  intro es hes e he
  obtain ⟨ls, hls, -⟩ := hcounts e.name (hes e he)
  obtain ⟨numbers, hn⟩ := hnumbers e.name (hes e he) ls hls
  exact ⟨ls, numbers, hls, hn⟩

theorem located_header (pkg : DnsPackage) : Located pkg.header [] fun _ => 0 where
  le _ _ _ h := absurd rfl h
  reads _ _ _ h := absurd rfl h
  last _ _ _ h := absurd rfl h
  place _ _ h := absurd h List.not_mem_nil

theorem wire_buildIndex {pkg : DnsPackage} (h : WellFormed pkg)
    (hlabels : (pkg.names.map labelCount).sum < 65536) :
    ∃ bss last bq br, sectionOctets pkg (buildIndex pkg) = .ok (bss ++ [last]) ∧
      bss.flatten = bq ++ br ∧ ((pkg.header ++ (bq ++ br)).length < 16384 →
        Written pkg.header (pkg.questions.map Question.entry) bq
          (literals [] (pkg.questions.map Question.entry)) ∧
        Written (pkg.header ++ bq) (pkg.countedRecords.map Answer.entry) br
          (literals (seenAfter [] (pkg.questions.map Question.entry))
            (pkg.countedRecords.map Answer.entry))) := by
  obtain ⟨hfresh, hdistinct, hknows⟩ := buildIndex_knows h hlabels
  have hquestions : KnowsEntries (buildIndex pkg) (pkg.questions.map Question.entry) := by
    apply hknows
    intro e he
    obtain ⟨q, hq, rfl⟩ := List.mem_map.mp he
    exact mem_names_question hq
  have hrecords : ∀ as : List Answer, as ⊆ pkg.records →
      KnowsEntries (buildIndex pkg) (as.map Answer.entry) := by
    intro as has
    apply hknows
    intro e he
    obtain ⟨a, ha, rfl⟩ := List.mem_map.mp he
    exact mem_names_record (has ha)
  have hcounted := hrecords pkg.countedRecords fun _ => mem_records_of_counted
  have hadditionals : KnowsEntries (buildIndex pkg) (pkg.additionals.map Answer.entry) := by
    apply hrecords
    rw [records_eq]
    exact List.subset_append_right _ _
  obtain ⟨bq, place₁, hbq⟩ := wireEntries_of_known hfresh hdistinct hquestions (fun _ => 0) 12
  obtain ⟨br, place₂, hbr⟩ := wireEntries_of_known hfresh hdistinct hcounted place₁ (12 + bq.length)
  obtain ⟨last, place₃, hlast⟩ := wireEntries_of_known hfresh hdistinct hadditionals place₂
    (12 + bq.length + br.length)
  obtain ⟨bss, hbss, hflat⟩ := sectionOctets_of_entries hbq hbr hlast
  rw [placed_zero hfresh] at hbss
  refine ⟨bss, last, bq, br, hbss, hflat, ?_⟩
  intro hlen
  have hlen₁ : (pkg.header ++ bq).length < 16384 := by
    rw [← List.append_assoc, List.length_append] at hlen
    omega
  obtain ⟨hq, place₄, hplace, hlocated⟩ := (located_header pkg).written hfresh hdistinct hquestions
    (Nat.succ_pos 11) hbq hlen₁
  rw [hplace] at hbr
  have hstart : 12 + bq.length = (pkg.header ++ bq).length := by
    rw [List.length_append, length_header]
  rw [hstart] at hbr
  obtain ⟨hr, -⟩ := hlocated.written hfresh hdistinct hcounted
    (by rw [← hstart]; omega) hbr (by rwa [List.append_assoc])
  exact ⟨hq, hr⟩

/-- With its own index an aligned package is decoded to itself. -/
theorem Aligned.decode {pkg : DnsPackage} (h : WellFormed pkg) (haligned : Aligned pkg)
    {bq br : Bytes}
    (hq : Written pkg.header (pkg.questions.map Question.entry) bq
      (literals [] (pkg.questions.map Question.entry)))
    (hr : Written (pkg.header ++ bq) (pkg.countedRecords.map Answer.entry) br
      (literals (seenAfter [] (pkg.questions.map Question.entry))
        (pkg.countedRecords.map Answer.entry)))
    (hW : W = pkg.header ++ (bq ++ br)) (hlen : W.length < 16384) :
    DnsPackage.decode (datagram W) W.length = .ok (some pkg) := by
  have hnodup : ((pkg.questions.map Question.entry).map fun e => lastLabel e.name).Nodup := by
    rw [List.map_map]
    exact haligned.questions
  have hquestions := decodeQuestions_written
    (fun q hq => h.name_ne_nil (mem_names_question hq)) hq
    (literals_of_nodup hnodup fun _ _ hmem => absurd hmem List.not_mem_nil) hW hlen
  rw [length_header] at hquestions
  have hseen : (pkg.questions.map fun q => lastLabel q.name) ⊆
      seenAfter [] (pkg.questions.map Question.entry) := by
    intro x hx
    rw [mem_seenAfter, List.map_map]
    exact .inr hx
  have hall : pkg.countedRecords = pkg.records := by
    rw [records_eq, haligned.additionals, List.append_nil]
  rw [hall] at hr
  obtain ⟨p, hp⟩ := decodeAnswers_written
    (fun a ha => h.name_ne_nil (mem_names_record ha)) (fun a ha => h.complete.record ha)
    (haligned.records.mono hseen) hr (by rw [hW, List.append_assoc, List.append_nil] : W = _ ++ (br ++ [])) hlen
  exact (decode_eq_some_iff h hW).mpr ⟨_, p, hquestions, hp⟩

/-- Which packages make the round trip: the aligned ones with their own index, and with an empty
one exactly those that have no records, or a blank one that is no additional record. -/
theorem roundTrips_when_aligned {pkg : DnsPackage} (h : WellFormed pkg) :
    (∀ W, wire pkg (buildIndex pkg) = .ok W → W.length < 16384 → Aligned pkg →
      RoundTrips pkg (buildIndex pkg)) ∧
    ∀ W, wire pkg .empty = .ok W → W.length < 16384 → (RoundTrips pkg .empty ↔
      pkg.additionals = [] ∧ pkg.records.length ≤ 1 ∧ ∀ a ∈ pkg.records, a.Blank) := by
  have hlength : ∀ {index : Index} {W last : Bytes} {bss : List Bytes}, wire pkg index = .ok W →
      sectionOctets pkg index = .ok (bss ++ [last]) →
      W.length = (pkg.header ++ bss.flatten ++ last).length := by
    intro index W last bss hW hbss
    obtain ⟨bss', hbss', rfl⟩ := wire_eq_ok.mp hW
    obtain rfl := Except.ok.inj (hbss.symm.trans hbss')
    rw [List.flatten_append, List.flatten_singleton, List.append_assoc]
  constructor
  · intro W hW hlt haligned
    obtain ⟨bss, last, bq, br, hbss, hflat, hwritten⟩ := wire_buildIndex h haligned.labels
    rw [hlength hW hbss] at hlt
    have hlen : (pkg.header ++ (bq ++ br)).length < 16384 := by
      rw [← hflat]
      exact Nat.lt_of_le_of_lt (by simp) hlt
    obtain ⟨hq, hr⟩ := hwritten hlen
    rw [roundTrips_iff h.complete hbss rfl (by omega), hflat]
    exact haligned.decode h hq hr rfl hlen
  · intro W hW hlt
    obtain ⟨bss, last, bq, br, hbss, hflat, hq, hr⟩ := wire_empty h
    rw [hlength hW hbss] at hlt
    have hlen : (pkg.header ++ (bq ++ br)).length < 16384 := by
      rw [← hflat]
      exact Nat.lt_of_le_of_lt (by simp) hlt
    rw [roundTrips_iff h.complete hbss rfl (by omega), hflat]
    exact decode_empty_iff h hq hr rfl hlen

/-- `a.b` is asked for, and the answer has the name `c.` with one more octet. -/
def answered (b : UInt8) : DnsPackage where
  id := 1
  flags := 0
  questions := [{ name := [97, 46, 98], type := 1, class_ := 1 }]
  answers := [{ name := [99, 46, b], type := 1, class_ := 1, ttl := 60, data_length := 1,
                data := [7] }]
  authorities := []
  additionals := []

theorem wellFormed_answered {b : UInt8} (hb : b ≠ 0) (hdot : b ≠ 46) : WellFormed (answered b) where
  questions := Nat.le_add_left 1 65534
  answers := Nat.le_add_left 1 65534
  authorities := Nat.zero_le _
  additionals := Nat.zero_le _
  names := by
    intro name hname
    have hlabel : ∀ b : UInt8, b ≠ 0 → b ≠ 46 → Label [b] := by
      intro b hb hdot
      exact ⟨Nat.one_pos, Nat.le_add_left 1 62, by simpa using hb.symm, by simpa using hdot.symm⟩
    have hcases : name = [97, 46, 98] ∨ name = [99, 46, b] := by
      simpa [DnsPackage.names, answered] using hname
    rcases hcases with rfl | rfl
    · exact ⟨[[97], [98]], List.cons_ne_nil _ _, by simp [hlabel], rfl⟩
    · exact ⟨[[99], [b]], List.cons_ne_nil _ _, by simp [hlabel, hb, hdot], rfl⟩
  complete := by
    constructor
    · intro a ha
      rw [List.mem_singleton.mp ha]
      rfl
    · intro a ha
      cases ha
    · intro a ha
      cases ha

theorem roundTrips_answered :
    RoundTrips (answered 98) (buildIndex (answered 98)) ∧ ¬ RoundTrips (answered 98) .empty := by
  obtain ⟨hbuilt, hempty⟩ :=
    roundTrips_when_aligned (wellFormed_answered (b := 98) (by decide) (by decide))
  have haligned : Aligned (answered 98) := by
    constructor
    · decide
    · decide
    · exact .inl ⟨by decide, trivial⟩
    · rfl
  have hW : wire (answered 98) (buildIndex (answered 98)) = .ok
      [0, 1, 0, 0, 0, 1, 0, 1, 0, 0, 0, 0, 1, 97, 1, 98, 0, 0, 1, 0, 1, 1, 99, 192, 14, 0, 1, 0, 1,
        0, 0, 0, 60, 0, 1, 7] := rfl
  have hW' : wire (answered 98) .empty = .ok
      [0, 1, 0, 0, 0, 1, 0, 1, 0, 0, 0, 0, 1, 97, 1, 98, 0, 0, 1, 0, 1, 1, 99, 1, 98, 0, 0, 1, 0, 1,
        0, 0, 0, 60, 0, 1, 7] := rfl
  refine ⟨hbuilt _ hW (by decide) haligned, ?_⟩
  rw [hempty _ hW' (by decide)]
  rintro ⟨-, -, hblank⟩
  exact absurd (hblank _ (List.mem_singleton_self _)).type (by decide)

/-- The answer `c.d` is read one octet too early. -/
theorem answered_not_roundTrips :
    ¬ ∀ pkg : DnsPackage, WellFormed pkg → ∀ W, wire pkg (buildIndex pkg) = .ok W →
      W.length < 16384 → RoundTrips pkg (buildIndex pkg) := by
  intro h
  have hwell := wellFormed_answered (b := 100) (by decide) (by decide)
  have hW : wire (answered 100) (buildIndex (answered 100)) = .ok
      [0, 1, 0, 0, 0, 1, 0, 1, 0, 0, 0, 0, 1, 97, 1, 98, 0, 0, 1, 0, 1, 1, 99, 1, 100, 0, 0, 1, 0, 1,
        0, 0, 0, 60, 0, 1, 7] := rfl
  have hbss : sectionOctets (answered 100) (buildIndex (answered 100)) = .ok
      ([[1, 97, 1, 98, 0, 0, 1, 0, 1], [1, 99, 1, 100, 0, 0, 1, 0, 1, 0, 0, 0, 60, 0, 1, 7], []] ++
        [[]]) := rfl
  have htrip := h _ hwell _ hW (by decide)
  rw [roundTrips_iff hwell.complete hbss rfl (by decide)] at htrip
  revert htrip
  decide +kernel

end DnsPackage

end Sese
