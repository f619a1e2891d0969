import Sese.Net.Dns.WireForm

/-!
# Encoding with any capacity

What `encode` does if the capacity is not enough. It stops at the first section that does
not fit, unless the capacity ends where a section starts: then a room of 0 is left for that
section, which means to count only. The section is left out, and the sections behind it
are written without a limit.

It is asked for the size with a capacity of 0; with any other capacity it is to write the package if
there is room for it, and nothing behind the capacity.
-/
namespace Sese

open Foundation

namespace DnsPackage

/-- The capacity ends at `start` plus the sections in front of the section `s`, which is not
empty. -/
structure EndsAt (start capacity : ℕ) (before : List Bytes) (s : Bytes) : Prop where
  ne_nil : s ≠ []
  capacity : start + before.flatten.length = capacity

theorem emit_enough (base : ℕ) (octets : Bytes) (out : Sink) {max : ℕ} (hmax : max ≠ 0)
    (hroom : out.length + octets.length ≤ max) :
    emit base max octets.length (.ok octets) out = .error .overflow ∨
      ∃ buffer, emit base max octets.length (.ok octets) out =
        .ok (true, ⟨out.length + octets.length, buffer⟩) := by
  rw [emit, if_neg hmax, if_neg (by omega), ok_bind, store]
  split_ifs with hfits
  · exact .inr ⟨_, rfl⟩
  · exact .inl rfl

section

variable {α : Type} {name : α → Bytes} {size : α → ℕ} {fields : α → Except Fault Bytes}
  {entry : α → Entry}

/-- A section that has not enough room is given up. -/
theorem encodeEntries_full {base max : ℕ} {items : List α} {out : Sink} {index index' : Index}
    {bs pre rest : Bytes} (hw : Writes name size fields entry items) (hmax : max ≠ 0)
    (h : wireEntries (items.map entry) (out.length + base) index = .ok (bs, index'))
    (hbuf : out.buffer = pre ++ rest) (hpre : base + out.length = pre.length)
    (hlen : out.length ≤ max) (hfull : max < out.length + bs.length)
    (hrest : max ≤ out.length + rest.length) :
    ∃ out' index'', encodeEntries name size fields base max items out index =
      .ok (false, out', index'') := by
  induction items generalizing out index bs pre rest with
  | nil =>
    cases h
    rw [List.length_nil] at hfull
    omega
  | cons a items ih =>
    obtain ⟨octets, index₁, more, hname, hmore, rfl⟩ := wireEntries_cons h
    rw [hw.name a List.mem_cons_self] at hname
    have hsize := hw.size a List.mem_cons_self
    simp only [List.length_append] at hfull
    rw [encodeEntries, hname, ok_bind]
    dsimp only
    by_cases hoctets : max < out.length + octets.length
    · rw [emit_full hmax hlen hoctets, ok_bind]
      exact ⟨out, index₁, rfl⟩
    rw [emit_room hmax hbuf hpre (not_lt.mp hoctets) (by omega), ok_bind]
    dsimp only
    rw [if_pos rfl, hw.fields a List.mem_cons_self, ← hsize]
    by_cases hfields : max < out.length + octets.length + (entry a).fields.length
    · rw [emit_full hmax (not_lt.mp hoctets) hfields, ok_bind]
      exact ⟨_, index₁, rfl⟩
    rw [emit_room hmax rfl (by simp; omega) (not_lt.mp hfields) (by rw [List.length_drop]; omega),
      ok_bind]
    dsimp only
    rw [if_pos rfl]
    apply ih hw.tail (by rw [← hmore]; congr 1; dsimp only; omega) rfl (by simp; omega)
      (not_lt.mp hfields)
    · dsimp only
      omega
    · simp only [List.length_drop]
      omega

theorem encodeEntries_enough {base max : ℕ} {items : List α} (out : Sink) {index index' : Index}
    {bs : Bytes} (hw : Writes name size fields entry items) (hmax : max ≠ 0)
    (h : wireEntries (items.map entry) (out.length + base) index = .ok (bs, index'))
    (hroom : out.length + bs.length ≤ max) :
    encodeEntries name size fields base max items out index = .error .overflow ∨
      ∃ buffer, encodeEntries name size fields base max items out index =
        .ok (true, ⟨out.length + bs.length, buffer⟩, index') := by
  induction items generalizing out index bs with
  | nil =>
    cases h
    exact .inr ⟨out.buffer, rfl⟩
  | cons a items ih =>
    obtain ⟨octets, index₁, more, hname, hmore, rfl⟩ := wireEntries_cons h
    rw [hw.name a List.mem_cons_self] at hname
    have hsize := hw.size a List.mem_cons_self
    simp only [List.length_append] at hroom ⊢
    rw [encodeEntries, hname, ok_bind]
    dsimp only
    rcases emit_enough base octets out hmax (by omega) with herr | ⟨buffer, hok⟩
    · rw [herr]
      exact .inl rfl
    rw [hok, ok_bind]
    dsimp only
    rw [if_pos rfl, hw.fields a List.mem_cons_self, ← hsize]
    rcases emit_enough base (entry a).fields ⟨out.length + octets.length, buffer⟩ hmax
      (by dsimp only; omega) with herr | ⟨buffer', hok'⟩
    · rw [herr]
      exact .inl rfl
    rw [hok', ok_bind]
    dsimp only
    rw [if_pos rfl]
    have hnext := ih ⟨out.length + octets.length + (entry a).fields.length, buffer'⟩ hw.tail
      (by rw [← hmore]; congr 1; dsimp only; omega) (by dsimp only; omega)
    simpa only [Nat.add_assoc] using hnext

end

/-- What the encoder of a section does with a limit. -/
structure LimitedSection (s : Section) (es : List Entry) : Prop extends WritesSection s es where
  full : ∀ {max : ℕ} {pre rest bs : Bytes} {index index' : Index}, max ≠ 0 →
    wireEntries es pre.length index = .ok (bs, index') → max < bs.length → max ≤ rest.length →
      ∃ out index'', s pre.length max (pre ++ rest) index = .ok (false, out, index'')
  enough : ∀ {base max : ℕ} {buffer bs : Bytes} {index index' : Index}, max ≠ 0 →
    wireEntries es base index = .ok (bs, index') → bs.length ≤ max →
      s base max buffer index = .error .overflow ∨
        ∃ buffer', s base max buffer index = .ok (true, ⟨bs.length, buffer'⟩, index')

theorem Writes.limited {α : Type} {name : α → Bytes} {size : α → ℕ}
    {fields : α → Except Fault Bytes} {entry : α → Entry} {items : List α}
    (hw : Writes name size fields entry items) :
    LimitedSection (fun base max buffer index =>
      encodeEntries name size fields base max items ⟨0, buffer⟩ index) (items.map entry) where
  toWritesSection := hw.section
  full hmax h hfull hrest := by
    apply encodeEntries_full hw hmax (by simpa using h) rfl (Nat.add_zero _) (Nat.zero_le _)
    · simpa using hfull
    · simpa using hrest
  enough {base max buffer bs index index'} hmax h hroom := by
    have henough := encodeEntries_enough ⟨0, buffer⟩ hw hmax (by simpa using h)
      (by simpa using hroom)
    simpa only [Nat.zero_add] using henough

theorem Complete.limited {pkg : DnsPackage} (h : pkg.Complete) :
    List.Forall₂ LimitedSection pkg.allSections pkg.entries :=
  .cons (questionWrites _).limited (.cons (answerWrites h.answers).limited
    (.cons (answerWrites h.authorities).limited
      (.cons (answerWrites h.additionals).limited .nil)))

theorem EndsAt.cons {start capacity : ℕ} {before : List Bytes} {s octets : Bytes}
    (h : EndsAt (start + octets.length) capacity before s) :
    EndsAt start capacity (octets :: before) s where
  ne_nil := h.ne_nil
  capacity := by
    rw [List.flatten_cons, List.length_append, ← Nat.add_assoc]
    exact h.capacity

theorem encodeSections_full {max : ℕ} {ss : List Section} {ess : List (List Entry)}
    (hs : List.Forall₂ LimitedSection ss ess) (pre rest : Bytes) {bss : List Bytes} {index : Index}
    (hmax : max < 2 ^ 64) (hpos : max ≠ 0) (h : wireSections ess pre.length index = .ok bss)
    (hpre : pre.length ≤ max) (hfull : max < pre.length + bss.flatten.length)
    (hrest : max ≤ pre.length + rest.length)
    (hends : ∀ before s after, bss = before ++ s :: after → ¬ EndsAt pre.length max before s) :
    ∃ n buffer index', encodeSections max ss pre.length (pre ++ rest) index =
      .ok (false, n, buffer, index') := by
  induction hs generalizing pre rest bss index with
  | nil =>
    cases h
    rw [List.flatten_nil, List.length_nil] at hfull
    omega
  | @cons s es ss ess hsec _ ih =>
    obtain ⟨octets, index₁, more, hoctets, hmore, rfl⟩ := wireSections_cons h
    rw [List.flatten_cons, List.length_append] at hfull
    by_cases hroom : pre.length + octets.length ≤ max
    · rw [hsec.step ss hmax hpos hoctets hroom (by omega)]
      rw [← List.length_append] at hmore
      apply ih _ _ hmore (by rwa [List.length_append]) (by rw [List.length_append]; omega)
      · rw [List.length_append, List.length_drop]
        omega
      · intro before s' after heq hend
        rw [List.length_append] at hend
        exact hends (octets :: before) s' after (by rw [heq]; rfl) hend.cons
    · have hlt : pre.length < max := by
        by_contra hge
        apply hends [] octets more rfl
        refine ⟨?_, ?_⟩
        · rintro rfl
          rw [List.length_nil] at hroom
          omega
        · rw [List.flatten_nil, List.length_nil]
          omega
      have hbuffer : max - pre.length ≤ rest.length := by omega
      obtain ⟨out, index'', hgiven⟩ := hsec.full (by omega : max - pre.length ≠ 0) hoctets
        (by omega) hbuffer
      refine ⟨pre.length, out.buffer, index'', ?_⟩
      rw [encodeSections, if_neg hpos, sizeSub_of_le hpre hmax, hgiven, ok_bind]
      rfl

/-- Up to the section where the capacity ends everything is written, and that section is left out. -/
theorem encodeSections_skip {max : ℕ} {ss : List Section} {ess : List (List Entry)}
    (hs : List.Forall₂ LimitedSection ss ess) (pre rest : Bytes) {before after : List Bytes}
    {s : Bytes} {index : Index} (hmax : max < 2 ^ 64) (hpos : max ≠ 0)
    (h : wireSections ess pre.length index = .ok (before ++ s :: after))
    (hends : EndsAt pre.length max before s) (hrest : max ≤ pre.length + rest.length) :
    ∃ ss' ess' index', List.Forall₂ LimitedSection ss' ess' ∧
      wireSections ess' (max + s.length) index' = .ok after ∧
      encodeSections max ss pre.length (pre ++ rest) index =
        encodeSections max ss' (max + s.length)
          ((pre ++ before.flatten) ++ rest.drop before.flatten.length) index' := by
  have hcapacity := hends.capacity
  induction before generalizing ss ess pre rest index with
  | nil =>
    rw [List.flatten_nil, List.length_nil, Nat.add_zero] at hcapacity
    cases hs with
    | nil => cases h
    | @cons sec es ss ess hsec hss =>
      obtain ⟨octets, index₁, more, hoctets, hmore, heq⟩ := wireSections_cons h
      obtain ⟨rfl, rfl⟩ := List.cons.inj heq
      refine ⟨ss, ess, index₁, hss, by rw [← hcapacity]; exact hmore, ?_⟩
      rw [encodeSections, if_neg hpos, sizeSub_of_le (Nat.le_of_eq hcapacity) hmax, hcapacity,
        Nat.sub_self, hsec.count (hcapacity ▸ hoctets), ok_bind]
      simp
  | cons b before ih =>
    rw [List.flatten_cons, List.length_append] at hcapacity
    cases hs with
    | nil => cases h
    | @cons sec es ss ess hsec hss =>
      obtain ⟨octets, index₁, more, hoctets, hmore, heq⟩ := wireSections_cons h
      obtain ⟨rfl, rfl⟩ := List.cons.inj heq
      rw [← List.length_append] at hmore
      have hcapacity' : (pre ++ b).length + before.flatten.length = max := by
        rw [List.length_append, Nat.add_assoc]
        exact hcapacity
      obtain ⟨ss', ess', index', hss', hwire', hnext⟩ := ih hss (pre ++ b) (rest.drop b.length) hmore
        ⟨hends.ne_nil, hcapacity'⟩ (by rw [List.length_append, List.length_drop]; omega) hcapacity'
      refine ⟨ss', ess', index', hss', hwire', ?_⟩
      rw [hsec.step ss hmax hpos hoctets (by omega) (by omega), hnext]
      simp only [List.flatten_cons, List.length_append, List.append_assoc, List.drop_drop]

theorem sizeSub_of_lt {a b : ℕ} (h : a < b) (hb : b < 2 ^ 64) : sizeSub a b = 2 ^ 64 + a - b := by
  unfold sizeSub
  omega

theorem encodeSections_beyond {max : ℕ} {ss : List Section} {ess : List (List Entry)}
    (hs : List.Forall₂ LimitedSection ss ess) (base : ℕ) (buffer : Bytes) {bss : List Bytes}
    {index : Index} (hpos : max ≠ 0) (h : wireSections ess base index = .ok bss)
    (hbase : max < base) (hlen : base + bss.flatten.length < 2 ^ 64) :
    encodeSections max ss base buffer index = .error .overflow ∨
      ∃ buffer' index', encodeSections max ss base buffer index =
        .ok (true, base + bss.flatten.length, buffer', index') := by
  induction hs generalizing base buffer bss index with
  | nil =>
    cases h
    exact .inr ⟨buffer, index, rfl⟩
  | @cons s es ss ess hsec _ ih =>
    obtain ⟨octets, index₁, more, hoctets, hmore, rfl⟩ := wireSections_cons h
    rw [List.flatten_cons, List.length_append] at hlen ⊢
    rw [encodeSections, if_neg hpos, sizeSub_of_lt hbase (by omega)]
    have henough : s base (2 ^ 64 + max - base) buffer index = .error .overflow ∨ ∃ buffer',
        s base (2 ^ 64 + max - base) buffer index = .ok (true, ⟨octets.length, buffer'⟩, index₁) :=
      hsec.enough (by omega) hoctets (by omega)
    rcases henough with herr | ⟨buffer', hok⟩
    · rw [herr]
      exact .inl rfl
    · rw [hok, ok_bind]
      dsimp only
      rw [if_pos rfl, ← Nat.add_assoc]
      exact ih _ buffer' hmore (by omega) (by omega)

theorem encodeSections_beyond_room {max : ℕ} {ss : List Section} {ess : List (List Entry)}
    (hs : List.Forall₂ LimitedSection ss ess) (pre rest : Bytes) {bss : List Bytes} {index : Index}
    (hpos : max ≠ 0) (h : wireSections ess pre.length index = .ok bss) (hbase : max < pre.length)
    (hlen : pre.length + bss.flatten.length < 2 ^ 64) (hrest : bss.flatten.length ≤ rest.length) :
    ∃ index', encodeSections max ss pre.length (pre ++ rest) index =
      .ok (true, pre.length + bss.flatten.length,
        (pre ++ bss.flatten) ++ rest.drop bss.flatten.length, index') := by
  induction hs generalizing pre rest bss index with
  | nil =>
    cases h
    exact ⟨index, by simp [encodeSections]⟩
  | @cons s es ss ess hsec _ ih =>
    obtain ⟨octets, index₁, more, hoctets, hmore, rfl⟩ := wireSections_cons h
    rw [List.flatten_cons, List.length_append] at hlen hrest
    rw [← List.length_append] at hmore
    obtain ⟨index', hnext⟩ := ih (pre ++ octets) (rest.drop octets.length) hmore
      (by rw [List.length_append]; omega) (by rw [List.length_append]; omega)
      (by rw [List.length_drop]; omega)
    refine ⟨index', ?_⟩
    rw [encodeSections, if_neg hpos, sizeSub_of_lt hbase (by omega),
      hsec.room (by omega : 2 ^ 64 + max - pre.length ≠ 0) hoctets (by omega) (by omega), ok_bind]
    dsimp only
    rw [if_pos rfl, ← List.length_append, hnext]
    simp only [List.flatten_cons, List.length_append, List.append_assoc, List.drop_drop,
      Nat.add_assoc]

section

variable {pkg : DnsPackage} {index : Index} {W buffer : Bytes} {bss : List Bytes} {capacity : ℕ}
  (hc : pkg.Complete) (hbss : sectionOctets pkg index = .ok bss) (hW : W = pkg.header ++ bss.flatten)
  (hcapacity : 12 ≤ capacity) (hbuf : capacity ≤ buffer.length) (hlt : capacity < 2 ^ 64)

include hc hbss hW hcapacity hbuf hlt

theorem encode_full (hfull : capacity < W.length)
    (hends : ∀ before s after, bss = before ++ s :: after → ¬ EndsAt 12 capacity before s) :
    ∃ n buffer' index', encode pkg buffer capacity index = .ok (false, n, buffer', index') := by
  rw [hW, List.length_append] at hfull
  have hrest : capacity ≤ pkg.header.length + (buffer.drop 12).length := by
    rw [length_header, List.length_drop]
    omega
  obtain ⟨n, buffer', index', h⟩ := encodeSections_full hc.limited pkg.header (buffer.drop 12) hlt
    (by omega) hbss hcapacity hfull hrest hends
  exact ⟨n, buffer', index', by rw [encode_header hcapacity hbuf, encodeBody_of_false h]⟩

/-- If the capacity ends in front of a section, `encode` does not fail. -/
theorem encode_skip {before after : List Bytes} {s : Bytes} (heq : bss = before ++ s :: after)
    (hends : EndsAt 12 capacity before s) (hsize : W.length < 2 ^ 64) :
    encode pkg buffer capacity index = .error .overflow ∨
      ∃ buffer' index', encode pkg buffer capacity index =
        .ok (true, countedLength bss, buffer', index') := by
  have hrest : capacity ≤ pkg.header.length + (buffer.drop 12).length := by
    rw [length_header, List.length_drop]
    omega
  have hpos := List.length_pos_iff.mpr hends.ne_nil
  have hlen : W.length = capacity + s.length + after.flatten.length := by
    rw [hW, heq, ← hends.capacity]
    simp only [List.length_append, length_header, List.flatten_append, List.flatten_cons,
      Nat.add_assoc]
  obtain ⟨ss', ess', index', hss', hwire', hskip⟩ := encodeSections_skip hc.limited pkg.header
    (buffer.drop 12) hlt (by omega) (heq ▸ hbss) hends hrest
  rw [encode_header hcapacity hbuf]
  have hne : capacity ≠ 0 := by omega
  have hbeyond := encodeSections_beyond hss' (capacity + s.length)
    ((pkg.header ++ before.flatten) ++ (buffer.drop 12).drop before.flatten.length) hne hwire'
    (by omega) (by omega)
  rw [← hskip] at hbeyond
  rcases hbeyond with herr | ⟨buffer', index'', hok⟩
  · exact .inl (encodeBody_of_error herr)
  · exact .inr ⟨buffer', index'', encodeBody_of_true hc hbss hok⟩

/-- In a buffer that has room for the package the octets of the section that was left out are
what was there before. -/
theorem encode_skip_room {before after : List Bytes} {s : Bytes} (heq : bss = before ++ s :: after)
    (hends : EndsAt 12 capacity before s) (hsize : W.length < 2 ^ 64) (hroom : W.length ≤ buffer.length) :
    ∃ index', encode pkg buffer capacity index = .ok (true, countedLength bss,
      (pkg.header ++ (before.flatten ++ (window buffer capacity s.length ++ after.flatten))) ++
        buffer.drop W.length, index') := by
  have hrest : capacity ≤ pkg.header.length + (buffer.drop 12).length := by
    rw [length_header, List.length_drop]
    omega
  have hpos := List.length_pos_iff.mpr hends.ne_nil
  have hbefore := hends.capacity
  have hlen : W.length = capacity + s.length + after.flatten.length := by
    rw [hW, heq, ← hends.capacity]
    simp only [List.length_append, length_header, List.flatten_append, List.flatten_cons,
      Nat.add_assoc]
  obtain ⟨ss', ess', index', hss', hwire', hskip⟩ := encodeSections_skip hc.limited pkg.header
    (buffer.drop 12) hlt (by omega) (heq ▸ hbss) hends hrest
  have hne : capacity ≠ 0 := by omega
  have hwindow : (window buffer capacity s.length).length = s.length :=
    length_window (by omega)
  have hstale : (buffer.drop 12).drop before.flatten.length =
      window buffer capacity s.length ++ buffer.drop (capacity + s.length) := by
    rw [List.drop_drop, hbefore, window, ← List.drop_drop, List.take_append_drop]
  have hstart : capacity + s.length =
      ((pkg.header ++ before.flatten) ++ window buffer capacity s.length).length := by
    rw [List.length_append, List.length_append, length_header, hbefore, hwindow]
  rw [hstale, ← List.append_assoc, hstart] at hskip
  rw [hstart] at hwire'
  obtain ⟨index'', hnext⟩ := encodeSections_beyond_room hss'
    ((pkg.header ++ before.flatten) ++ window buffer capacity s.length)
    (buffer.drop ((pkg.header ++ before.flatten) ++ window buffer capacity s.length).length) hne hwire'
    (by rw [← hstart]; omega) (by rw [← hstart]; omega) (by rw [← hstart, List.length_drop]; omega)
  refine ⟨index'', ?_⟩
  rw [hnext] at hskip
  rw [encode_header hcapacity hbuf, encodeBody_of_true hc hbss hskip, ← hstart, List.drop_drop, ← hlen]
  simp only [List.append_assoc]

end

/-- What `encode` promises for a package with the octets `W`. The buffer ends at the capacity, so
that a write behind it is a fault. -/
structure LengthContract (pkg : DnsPackage) (index : Index) (W : Bytes) (capacity : ℕ) : Prop where
  size : capacity = 0 → ∀ buffer, ∃ index',
    encode pkg buffer capacity index = .ok (true, W.length, buffer, index')
  whole : capacity ≠ 0 → W.length ≤ capacity → ∀ buffer, buffer.length = capacity → ∃ index',
    encode pkg buffer capacity index = .ok (true, W.length, W ++ buffer.drop W.length, index')
  refused : capacity ≠ 0 → capacity < W.length → ∀ buffer, buffer.length = capacity →
    ∃ n buffer' index', encode pkg buffer capacity index = .ok (false, n, buffer', index')

theorem encodeSections_count {ss : List Section} {ess : List (List Entry)}
    (hs : List.Forall₂ WritesSection ss ess) (base : ℕ) (buffer : Bytes) {bss : List Bytes}
    {index : Index} (h : wireSections ess base index = .ok bss) :
    ∃ index', encodeSections 0 ss base buffer index =
      .ok (true, base + bss.flatten.length, buffer, index') := by
  induction hs generalizing base bss index with
  | nil =>
    cases h
    exact ⟨index, rfl⟩
  | @cons s es ss ess hsec _ ih =>
    obtain ⟨octets, index₁, more, hoctets, hmore, rfl⟩ := wireSections_cons h
    obtain ⟨index', hnext⟩ := ih (base + octets.length) hmore
    refine ⟨index', ?_⟩
    rw [encodeSections, if_pos rfl, hsec.count hoctets, ok_bind]
    dsimp only
    rw [if_pos rfl, hnext, List.flatten_cons, List.length_append, Nat.add_assoc]

section

variable {pkg : DnsPackage} {index : Index} {W : Bytes} {bss : List Bytes} {capacity : ℕ}
  (hc : pkg.Complete) (hbss : sectionOctets pkg index = .ok bss) (hW : W = pkg.header ++ bss.flatten)

include hc hbss

theorem encode_count (buffer : Bytes) :
    ∃ index', encode pkg buffer 0 index = .ok (true, countedLength bss, buffer, index') := by
  obtain ⟨index', h⟩ := encodeSections_count hc.sections 12 buffer hbss
  refine ⟨index', ?_⟩
  rw [encode, Index.clearPos, if_pos rfl, encodeBody_of_true hc hbss h]

include hW

theorem size_iff : (∀ buffer, ∃ index', encode pkg buffer 0 index =
    .ok (true, W.length, buffer, index')) ↔ pkg.additionals = [] := by
  rw [← countedLength_eq_iff hbss, ← hW]
  constructor
  · intro h
    obtain ⟨index', h⟩ := h []
    obtain ⟨index'', hcount⟩ := encode_count hc hbss []
    rw [hcount] at h
    exact congrArg (fun r => r.2.1) (Except.ok.inj h)
  · intro heq buffer
    rw [← heq]
    exact encode_count hc hbss buffer

theorem whole_iff (hlt : capacity < 2 ^ 64) (hroom : W.length ≤ capacity) :
    (∀ buffer : Bytes, buffer.length = capacity → ∃ index', encode pkg buffer capacity index =
      .ok (true, W.length, W ++ buffer.drop W.length, index')) ↔ pkg.additionals = [] := by
  rw [← countedLength_eq_iff hbss, ← hW]
  constructor
  · intro h
    have hlen : (List.replicate capacity (0 : UInt8)).length = capacity := List.length_replicate
    obtain ⟨index', h⟩ := h _ hlen
    obtain ⟨index'', hencode⟩ := encode_room hc hbss hW hlt hroom hlen.ge
    rw [hencode] at h
    exact congrArg (fun r => r.2.1) (Except.ok.inj h)
  · intro heq buffer hbuffer
    obtain ⟨index', hencode⟩ := encode_room hc hbss hW hlt hroom hbuffer.ge
    rw [heq] at hencode
    exact ⟨index', hencode⟩

/-- Too small a capacity is refused if it does not end in front of a section. -/
theorem refused_iff (hpos : capacity ≠ 0) (hfull : capacity < W.length) (hsize : W.length < 2 ^ 64) :
    (∀ buffer : Bytes, buffer.length = capacity → ∃ n buffer' index',
      encode pkg buffer capacity index = .ok (false, n, buffer', index')) ↔
      ∀ before s after, bss = before ++ s :: after → ¬ EndsAt 12 capacity before s := by
  constructor
  · intro h before s after heq hends
    have hlen : (List.replicate capacity (0 : UInt8)).length = capacity := List.length_replicate
    obtain ⟨n, buffer', index', h⟩ := h _ hlen
    have hmin : 12 ≤ capacity := by
      have hcapacity := hends.capacity
      omega
    rcases encode_skip hc hbss hW hmin hlen.ge (by omega) heq hends hsize with herr | ⟨b, i, hok⟩
    · rw [herr] at h
      cases h
    · rw [hok] at h
      cases h
  · intro hends buffer hbuffer
    by_cases hmin : 12 ≤ capacity
    · exact encode_full hc hbss hW hmin hbuffer.ge (by omega) hfull hends
    · refine ⟨0, buffer, index, ?_⟩
      rw [encode, Index.clearPos, if_neg hpos, if_pos (not_le.mp hmin)]

/-- When `encode` keeps its promise. -/
theorem lengthContract_iff (hlt : capacity < 2 ^ 64) (hsize : W.length < 2 ^ 64) :
    LengthContract pkg index W capacity ↔
      (capacity = 0 ∨ W.length ≤ capacity → pkg.additionals = []) ∧
      (capacity ≠ 0 → capacity < W.length → ∀ before s after, bss = before ++ s :: after →
        ¬ EndsAt 12 capacity before s) := by
  constructor
  · intro h
    refine ⟨?_, ?_⟩
    · rintro (rfl | hroom)
      · exact (size_iff hc hbss hW).mp (h.size rfl)
      · by_cases hzero : capacity = 0
        · subst hzero
          exact (size_iff hc hbss hW).mp (h.size rfl)
        · exact (whole_iff hc hbss hW hlt hroom).mp (h.whole hzero hroom)
    · intro hpos hfull
      exact (refused_iff hc hbss hW hpos hfull hsize).mp (h.refused hpos hfull)
  · rintro ⟨hnone, hends⟩
    refine ⟨?_, ?_, ?_⟩
    · rintro rfl
      exact (size_iff hc hbss hW).mpr (hnone (.inl rfl))
    · intro _ hroom
      exact (whole_iff hc hbss hW hlt hroom).mpr (hnone (.inr hroom))
    · intro hpos hfull
      exact (refused_iff hc hbss hW hpos hfull hsize).mpr (hends hpos hfull)

end

/-- `a` is asked for, and there are these additional records. -/
def askingA (additionals : List Answer) : DnsPackage where
  id := 1
  flags := 0
  questions := [{ name := [97], type := 1, class_ := 1 }]
  answers := []
  authorities := []
  additionals := additionals

/-- The address of `a`. -/
def recordA : Answer where
  name := [97]
  type := 1
  class_ := 1
  ttl := 60
  data_length := 4
  data := [10, 0, 0, 1]

theorem complete_askingA {additionals : List Answer}
    (h : ∀ a ∈ additionals, a.data.length = a.data_length.toNat) : (askingA additionals).Complete :=
  ⟨List.forall_mem_nil _, List.forall_mem_nil _, h⟩

/-- In front of the additional record there is no room left, and so it is only counted. -/
theorem lengthContract_askingA :
    (∃ W, LengthContract (askingA []) (buildIndex (askingA [])) W 19) ∧
      ∃ W, ¬ LengthContract (askingA [recordA]) (buildIndex (askingA [recordA])) W 19 := by
  have hbss : sectionOctets (askingA []) (buildIndex (askingA [])) =
      .ok [[1, 97, 0, 0, 1, 0, 1], [], [], []] := rfl
  have hbss' : sectionOctets (askingA [recordA]) (buildIndex (askingA [recordA])) =
      .ok [[1, 97, 0, 0, 1, 0, 1], [], [], [192, 12, 0, 1, 0, 1, 0, 0, 0, 60, 0, 4, 10, 0, 0, 1]] := rfl
  have hdata : ∀ a ∈ [recordA], a.data.length = a.data_length.toNat := by
    intro a ha
    rw [List.mem_singleton.mp ha]
    rfl
  constructor
  · refine ⟨_, (lengthContract_iff (complete_askingA (List.forall_mem_nil _)) hbss rfl (by decide)
      (by decide)).mpr ⟨fun _ => rfl, fun _ hfull => absurd hfull (by decide)⟩⟩
  · refine ⟨_, mt (lengthContract_iff (complete_askingA hdata) hbss' rfl (by decide)
      (by decide)).mp fun h => ?_⟩
    have hends := h.2 (by decide) (by decide) [[1, 97, 0, 0, 1, 0, 1], [], []] _ [] rfl
    exact hends ⟨by decide, rfl⟩

/-- The size that is computed leaves out the additional record. -/
theorem recordA_not_counted :
    ¬ ∀ (pkg : DnsPackage) (W : Bytes) (capacity : ℕ), pkg.Complete →
      wire pkg (buildIndex pkg) = .ok W → capacity < 2 ^ 64 → W.length < 2 ^ 64 →
      LengthContract pkg (buildIndex pkg) W capacity := by
  intro h
  have hdata : ∀ a ∈ [recordA], a.data.length = a.data_length.toNat := by
    intro a ha
    rw [List.mem_singleton.mp ha]
    rfl
  have hW : wire (askingA [recordA]) (buildIndex (askingA [recordA])) = .ok
      [0, 1, 0, 0, 0, 1, 0, 0, 0, 0, 0, 1, 1, 97, 0, 0, 1, 0, 1,
        192, 12, 0, 1, 0, 1, 0, 0, 0, 60, 0, 4, 10, 0, 0, 1] := rfl
  obtain ⟨index', hsize⟩ := (h _ _ 0 (complete_askingA hdata) hW (by decide) (by decide)).size rfl []
  have hcount : (encode (askingA [recordA]) [] 0 (buildIndex (askingA [recordA]))).map
      (fun r => r.2.1) = .ok 19 := rfl
  rw [hsize] at hcount
  cases hcount

end DnsPackage

end Sese
