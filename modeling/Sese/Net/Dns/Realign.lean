import Sese.Net.Dns.Decoding
import Sese.Net.Dns.Layout

/-!
# Decoding what was encoded

The decoder skips one octet behind the name of a question, and none behind the name of a
record. Behind a name that is written out it stands on the zero, and behind a pointer past it.
So a question is read back if its name was written out, and a record if it was compressed,
and otherwise the decoder is one octet off.
-/
namespace Sese

open Foundation

namespace DnsPackage

open Index

theorem fromBigEndian_toBigEndian16 {n : ℕ} (h : n < 2 ^ 16) :
    fromBigEndian (toBigEndian16 n) = n := by
  simp only [fromBigEndian, toBigEndian16, List.foldl_cons, List.foldl_nil, UInt8.toNat_ofNat']
  omega

theorem read16_append (pre post : Bytes) {W : Bytes} {n : UInt16} {i : ℕ}
    (hW : W = pre ++ (toBigEndian16 n.toNat ++ post)) (hi : i = pre.length) :
    read16 (datagram W) i = .ok n := by
  have hread : readBytes (datagram W) i 2 = .ok (toBigEndian16 n.toNat) := by
    rw [hW]
    exact readBytes_append hi rfl
  rw [read16, hread, ok_bind, fromBigEndian_toBigEndian16 n.toNat_lt, UInt16.ofNat_toNat]

theorem read32_append (pre post : Bytes) {W : Bytes} {n : UInt32} {i : ℕ}
    (hW : W = pre ++ (toBigEndian32 n.toNat ++ post)) (hi : i = pre.length) :
    read32 (datagram W) i = .ok n := by
  have hread : readBytes (datagram W) i 4 = .ok (toBigEndian32 n.toNat) := by
    rw [hW]
    exact readBytes_append hi rfl
  rw [read32, hread, ok_bind, fromBigEndian_toBigEndian32 n.toNat_lt, UInt32.ofNat_toNat]

variable {W pre post : Bytes} {pos n : ℕ}

/-- A question whose name ends one octet before its fields. -/
theorem decodeQuestions_step (pre post : Bytes) {q : Question} {e : ℕ} (hne : q.name ≠ [])
    (hname : decodeWords (datagram W) W.length pos = .ok (q.name, e))
    (hW : W = pre ++ (q.entry.fields ++ post)) (he : e + 1 = pre.length) :
    decodeQuestions (datagram W) W.length (n + 1) pos =
      (decodeQuestions (datagram W) W.length n (pre.length + q.entry.fields.length)).map
        (Option.map fun r => (q :: r.1, r.2)) := by
  have htype : read16 (datagram W) (e + 1) = .ok q.type :=
    read16_append pre (toBigEndian16 q.class_.toNat ++ post)
      (by rw [hW, Question.entry, List.append_assoc]) he
  have hclass : read16 (datagram W) (e + 3) = .ok q.class_ :=
    read16_append (pre ++ toBigEndian16 q.type.toNat) post
      (by rw [hW, Question.entry]; simp only [List.append_assoc])
      (by rw [List.length_append, ← he]; rfl)
  have hend : e + 5 = pre.length + q.entry.fields.length := by
    rw [length_questionFields, ← he]
  rw [decodeQuestions, hname, ok_bind]
  dsimp only
  rw [if_neg hne, htype, ok_bind, hclass, ok_bind, hend]
  rfl

/-- A record whose name ends where its fields start. -/
theorem decodeAnswers_step (pre post : Bytes) {a : Answer} {e : ℕ} (hne : a.name ≠ [])
    (hname : decodeWords (datagram W) W.length pos = .ok (a.name, e))
    (hW : W = pre ++ (a.entry.fields ++ post)) (he : e = pre.length)
    (hdata : a.data.length = a.data_length.toNat) :
    decodeAnswers (datagram W) W.length (n + 1) pos =
      (decodeAnswers (datagram W) W.length n (pre.length + a.entry.fields.length)).map
        (Option.map fun r => (a :: r.1, r.2)) := by
  have hcat : W = pre ++ (toBigEndian16 a.type.toNat ++ (toBigEndian16 a.class_.toNat ++
      (toBigEndian32 a.ttl.toNat ++ (toBigEndian16 a.data_length.toNat ++ (a.data ++ post))))) := by
    rw [hW, Answer.entry, Answer.head]
    simp only [List.append_assoc]
  have hlen : W.length = pre.length + (10 + (a.data.length + post.length)) := by
    rw [hW, Answer.entry, List.length_append, List.length_append, List.length_append,
      length_answerHead]
    omega
  have htype : read16 (datagram W) e = .ok a.type := read16_append pre _ hcat he
  have hclass : read16 (datagram W) (e + 2) = .ok a.class_ :=
    read16_append (pre ++ toBigEndian16 a.type.toNat)
      (toBigEndian32 a.ttl.toNat ++ (toBigEndian16 a.data_length.toNat ++ (a.data ++ post)))
      (by rw [hcat]; simp only [List.append_assoc]) (by rw [List.length_append, ← he]; rfl)
  have httl : read32 (datagram W) (e + 4) = .ok a.ttl :=
    read32_append (pre ++ (toBigEndian16 a.type.toNat ++ toBigEndian16 a.class_.toNat))
      (toBigEndian16 a.data_length.toNat ++ (a.data ++ post))
      (by rw [hcat]; simp only [List.append_assoc]) (by rw [List.length_append, ← he]; rfl)
  have hdatalen : read16 (datagram W) (e + 8) = .ok a.data_length :=
    read16_append (pre ++ (toBigEndian16 a.type.toNat ++ (toBigEndian16 a.class_.toNat ++
      toBigEndian32 a.ttl.toNat))) (a.data ++ post)
      (by rw [hcat]; simp only [List.append_assoc]) (by rw [List.length_append, ← he]; rfl)
  have hread : readBytes (datagram W) (e + 10) a.data_length.toNat = .ok a.data := by
    have hsplit : W = (pre ++ a.head) ++ (a.data ++ post) := by
      rw [hW, Answer.entry]
      simp only [List.append_assoc]
    rw [hsplit]
    exact readBytes_append (by rw [List.length_append, ← he, length_answerHead]) hdata.symm
  have hend : e + 10 + a.data_length.toNat = pre.length + a.entry.fields.length := by
    rw [Answer.entry, List.length_append, length_answerHead, hdata, he, Nat.add_assoc]
  rw [decodeAnswers, hname, ok_bind]
  dsimp only
  rw [if_neg hne, if_neg (by omega), htype, ok_bind, hclass, ok_bind, httl, ok_bind, hdatalen, ok_bind,
    if_neg (by omega), hread, ok_bind, hend]
  rfl

/-- Behind a name that is written out the decoder stands on the zero. -/
theorem WrittenAs.literal {octets name : Bytes} (h : WrittenAs pre octets name true)
    (hW : W = pre ++ (octets ++ post)) (hlen : W.length < 16384) :
    ∃ labels, octets = labels ++ [0] ∧ decodeWords (datagram W) W.length pre.length =
      .ok (name, (pre ++ labels).length) := by
  obtain ⟨labels, rfl⟩ := h.zero rfl
  refine ⟨labels, rfl, ?_⟩
  have hread := (h.reads post (hW ▸ hlen)).decode_datagram
  rw [← hW, if_pos rfl, List.length_append, List.length_singleton, ← Nat.add_assoc,
    Nat.add_sub_cancel] at hread
  rw [hread, List.length_append]

/-- Behind a pointer the decoder stands past it. -/
theorem WrittenAs.pointer {octets name : Bytes} (h : WrittenAs pre octets name false)
    (hW : W = pre ++ (octets ++ post)) (hlen : W.length < 16384) :
    decodeWords (datagram W) W.length pre.length = .ok (name, (pre ++ octets).length) := by
  have hread := (h.reads post (hW ▸ hlen)).decode_datagram
  rw [← hW] at hread
  rw [hread, List.length_append]
  rfl

theorem decodeQuestions_written {qs : List Question} (hnames : ∀ q ∈ qs, q.name ≠ []) {bs : Bytes}
    {lits : List Bool} (h : Written pre (qs.map Question.entry) bs lits)
    (hlits : ∀ lit ∈ lits, lit = true) (hW : W = pre ++ (bs ++ post)) (hlen : W.length < 16384) :
    decodeQuestions (datagram W) W.length qs.length pre.length =
      .ok (some (qs, (pre ++ bs).length)) := by
  induction qs generalizing pre bs lits with
  | nil =>
    cases h
    rw [List.append_nil]
    rfl
  | cons q qs ih =>
    rw [List.map_cons] at h
    cases h with
    | @cons _ octets rest _ _ lit lits hname hrest =>
      obtain rfl := hlits lit List.mem_cons_self
      obtain ⟨labels, rfl, hword⟩ := hname.literal (hW.trans (by rw [List.append_assoc])) hlen
      have hnext := ih (fun q hq => hnames q (List.mem_cons_of_mem _ hq)) hrest
        (fun lit hl => hlits lit (List.mem_cons_of_mem _ hl))
        (by rw [hW]; simp only [List.append_assoc])
      have hstep := decodeQuestions_step (n := qs.length) (pre ++ (labels ++ [0])) (rest ++ post)
        (hnames q List.mem_cons_self) hword (by rw [hW]; simp only [List.append_assoc])
        (by simp [Nat.add_assoc])
      rw [List.length_cons, hstep, ← List.length_append, List.append_assoc, hnext]
      simp only [Except.map, Option.map_some, List.append_assoc]

/-- A record without any fields but its name. -/
structure Answer.Blank (a : Answer) : Prop where
  type : a.type = 0
  class_ : a.class_ = 0
  ttl : a.ttl = 0
  data_length : a.data_length = 0

/-- Every record ends with the last label of a name before, but for a blank one at the end. -/
def RecordsAligned (seen : List (Option Bytes)) : List Answer → Prop
  | [] => True
  | a :: as => lastLabel a.name ∈ seen ∧ RecordsAligned (lastLabel a.name :: seen) as ∨
      as = [] ∧ a.Blank

theorem Answer.Blank.head_eq {a : Answer} (h : a.Blank) : a.head = [0, 0, 0, 0, 0, 0, 0, 0, 0, 0] := by
  rw [Answer.head, h.type, h.class_, h.ttl, h.data_length]
  rfl

theorem Answer.Blank.data_eq {a : Answer} (h : a.Blank) (hdata : a.data.length = a.data_length.toNat) :
    a.data = [] := by
  rw [h.data_length] at hdata
  exact List.length_eq_zero_iff.mp hdata

theorem Answer.Blank.fields_eq {a : Answer} (h : a.Blank) (hdata : a.data.length = a.data_length.toNat) :
    a.entry.fields = [0, 0, 0, 0, 0, 0, 0, 0, 0, 0] := by
  rw [Answer.entry, h.head_eq, h.data_eq hdata]
  rfl

/-- A blank record is read back in any case, if nothing comes behind it. -/
theorem decodeAnswers_blank (post : Bytes) {a : Answer} (hne : a.name ≠ []) (hblank : a.Blank)
    (hdata : a.data.length = a.data_length.toNat) {octets : Bytes} {lit : Bool}
    (h : WrittenAs pre octets a.name lit) (hW : W = pre ++ (octets ++ (a.entry.fields ++ post)))
    (hlen : W.length < 16384) :
    ∃ p, decodeAnswers (datagram W) W.length 1 pre.length = .ok (some ([a], p)) := by
  cases lit with
  | false =>
    have hstep := decodeAnswers_step (n := 0) (pre ++ octets) post hne (h.pointer hW hlen)
      (by rw [hW, List.append_assoc]) rfl hdata
    exact ⟨_, hstep⟩
  | true =>
    obtain ⟨labels, rfl, hword⟩ := h.literal hW hlen
    have hfields := hblank.fields_eq hdata
    have hstep := decodeAnswers_step (n := 0) (pre ++ labels) (0 :: post) hne hword
      (by rw [hW, hfields]; simp) rfl hdata
    exact ⟨_, hstep⟩

theorem decodeAnswers_written {as : List Answer} (hnames : ∀ a ∈ as, a.name ≠ [])
    (hdata : ∀ a ∈ as, a.data.length = a.data_length.toNat) {seen : List (Option Bytes)}
    (haligned : RecordsAligned seen as) {bs : Bytes}
    (h : Written pre (as.map Answer.entry) bs (literals seen (as.map Answer.entry)))
    (hW : W = pre ++ (bs ++ post)) (hlen : W.length < 16384) :
    ∃ p, decodeAnswers (datagram W) W.length as.length pre.length = .ok (some (as, p)) := by
  induction as generalizing pre seen bs with
  | nil => exact ⟨pre.length, rfl⟩
  | cons a as ih =>
    have hne := hnames a List.mem_cons_self
    have hlength := hdata a List.mem_cons_self
    rw [List.map_cons, literals] at h
    cases h with
    | @cons _ octets rest _ _ lit lits hname hrest =>
      rcases haligned with ⟨hseen, haligned⟩ | ⟨rfl, hblank⟩
      · have hlit : decide (lastLabel a.entry.name ∉ seen) = false :=
          decide_eq_false (not_not.mpr hseen)
        rw [hlit] at hname
        obtain ⟨p, hp⟩ := ih (fun a ha => hnames a (List.mem_cons_of_mem _ ha))
          (fun a ha => hdata a (List.mem_cons_of_mem _ ha)) haligned hrest
          (by rw [hW]; simp only [List.append_assoc])
        have hstep := decodeAnswers_step (n := as.length) (pre ++ octets) (rest ++ post) hne
          (hname.pointer (hW.trans (by rw [List.append_assoc])) hlen)
          (by rw [hW]; simp only [List.append_assoc]) rfl hlength
        refine ⟨p, ?_⟩
        rw [List.length_cons, hstep, ← List.length_append, List.append_assoc, hp]
        rfl
      · exact decodeAnswers_blank (rest ++ post) hne hblank hlength hname
          (by rw [hW]; simp only [List.append_assoc]) hlen

theorem Answer.head_octets (a : Answer) :
    a.head = [.ofNat (a.type.toNat / 2 ^ 8), .ofNat a.type.toNat, .ofNat (a.class_.toNat / 2 ^ 8),
      .ofNat a.class_.toNat, .ofNat (a.ttl.toNat / 2 ^ 24), .ofNat (a.ttl.toNat / 2 ^ 16),
      .ofNat (a.ttl.toNat / 2 ^ 8), .ofNat a.ttl.toNat, .ofNat (a.data_length.toNat / 2 ^ 8),
      .ofNat a.data_length.toNat] := rfl

theorem eq_zero_of_shift16 {n : UInt16}
    (h : n = .ofNat (fromBigEndian [0, .ofNat (n.toNat / 2 ^ 8)])) : n = 0 := by
  have hlt := n.toNat_lt
  have hzero : (0 : UInt8).toNat = 0 := rfl
  have hnat := congrArg UInt16.toNat h
  have hbytes : (UInt16.ofNat (fromBigEndian [0, .ofNat (n.toNat / 2 ^ 8)])).toNat =
      n.toNat / 2 ^ 8 := by
    simp only [fromBigEndian, List.foldl_cons, List.foldl_nil, UInt8.toNat_ofNat',
      UInt16.toNat_ofNat', hzero]
    clear h hnat
    omega
  apply UInt16.toNat_inj.mp
  rw [hbytes] at hnat
  clear h hbytes
  change n.toNat = 0
  omega

theorem eq_zero_of_shift32 {n : UInt32}
    (h : n = .ofNat (fromBigEndian [0, .ofNat (n.toNat / 2 ^ 24), .ofNat (n.toNat / 2 ^ 16),
      .ofNat (n.toNat / 2 ^ 8)])) : n = 0 := by
  have hlt := n.toNat_lt
  have hzero : (0 : UInt8).toNat = 0 := rfl
  have hnat := congrArg UInt32.toNat h
  have hbytes : (UInt32.ofNat (fromBigEndian [0, .ofNat (n.toNat / 2 ^ 24),
      .ofNat (n.toNat / 2 ^ 16), .ofNat (n.toNat / 2 ^ 8)])).toNat = n.toNat / 2 ^ 8 := by
    simp only [fromBigEndian, List.foldl_cons, List.foldl_nil, UInt8.toNat_ofNat',
      UInt32.toNat_ofNat', hzero]
    clear h hnat
    omega
  apply UInt32.toNat_inj.mp
  rw [hbytes] at hnat
  clear h hbytes
  change n.toNat = 0
  omega

/-- A record that is the same when it is read one octet too early is blank. -/
theorem Answer.blank_of_shifted {a : Answer} {t₁ t₂ c₁ c₂ l₁ l₂ l₃ l₄ d₁ d₂ : UInt8}
    (hhead : a.head = [t₁, t₂, c₁, c₂, l₁, l₂, l₃, l₄, d₁, d₂])
    (htype : a.type = .ofNat (fromBigEndian [0, t₁]))
    (hclass : a.class_ = .ofNat (fromBigEndian [t₂, c₁]))
    (httl : a.ttl = .ofNat (fromBigEndian [c₂, l₁, l₂, l₃]))
    (hdata : a.data_length = .ofNat (fromBigEndian [l₄, d₁])) : a.Blank := by
  rw [a.head_octets] at hhead
  simp only [List.cons.injEq, and_true] at hhead
  obtain ⟨rfl, rfl, rfl, rfl, rfl, rfl, rfl, rfl, rfl, rfl⟩ := hhead
  have ht : a.type = 0 := eq_zero_of_shift16 htype
  rw [ht] at hclass
  have hc : a.class_ = 0 := eq_zero_of_shift16 hclass
  rw [hc] at httl
  have hl : a.ttl = 0 := eq_zero_of_shift32 httl
  rw [hl] at hdata
  exact ⟨ht, hc, hl, eq_zero_of_shift16 hdata⟩

theorem name_ne_of_decodeAnswers {name : Bytes} {e : ℕ} {r : List Answer × ℕ}
    (hname : decodeWords (datagram W) W.length pos = .ok (name, e))
    (hdec : decodeAnswers (datagram W) W.length (n + 1) pos = .ok (some r)) : name ≠ [] := by
  intro hnil
  rw [decodeAnswers, hname, ok_bind] at hdec
  dsimp only at hdec
  rw [if_pos hnil] at hdec
  cases hdec

theorem blank_of_decodeAnswers (pre post : Bytes) {a : Answer} {as : List Answer} {p : ℕ}
    (hne : a.name ≠ []) (hname : decodeWords (datagram W) W.length pos = .ok (a.name, pre.length))
    (hW : W = pre ++ 0 :: (a.entry.fields ++ post))
    (hdec : decodeAnswers (datagram W) W.length (n + 1) pos = .ok (some (a :: as, p))) : a.Blank := by
  obtain ⟨t₁, t₂, c₁, c₂, l₁, l₂, l₃, l₄, d₁, d₂, hhead⟩ : ∃ t₁ t₂ c₁ c₂ l₁ l₂ l₃ l₄ d₁ d₂,
      a.head = [t₁, t₂, c₁, c₂, l₁, l₂, l₃, l₄, d₁, d₂] := ⟨_, _, _, _, _, _, _, _, _, _, rfl⟩
  have hcat : W = pre ++
      (0 :: t₁ :: t₂ :: c₁ :: c₂ :: l₁ :: l₂ :: l₃ :: l₄ :: d₁ :: d₂ :: (a.data ++ post)) := by
    rw [hW, Answer.entry, hhead]
    simp
  have hread : ∀ (before block after : Bytes) {k m : ℕ}, W = pre ++ (before ++ (block ++ after)) →
      k = before.length → m = block.length → readBytes (datagram W) (pre.length + k) m = .ok block := by
    intro before block after k m hW hk hm
    rw [hW, ← List.append_assoc]
    exact readBytes_append (by rw [hk, ← List.length_append]) hm
  have htype := hread [] [0, t₁] _ hcat rfl rfl
  have hclass := hread [0, t₁] [t₂, c₁] _ hcat rfl rfl
  have httl := hread [0, t₁, t₂, c₁] [c₂, l₁, l₂, l₃] _ hcat rfl rfl
  have hdl := hread [0, t₁, t₂, c₁, c₂, l₁, l₂, l₃] [l₄, d₁] _ hcat rfl rfl
  rw [decodeAnswers, hname, ok_bind] at hdec
  dsimp only at hdec
  rw [if_neg hne] at hdec
  split_ifs at hdec
  · cases hdec
  simp only [read16, read32] at hdec
  rw [List.length_nil, Nat.add_zero] at htype
  simp only [List.length_cons, List.length_nil, Nat.zero_add, Nat.reduceAdd] at htype hclass httl hdl
  rw [htype, hclass, httl, hdl] at hdec
  simp only [ok_bind] at hdec
  split_ifs at hdec
  · cases hdec
  obtain ⟨data, -, hdec⟩ := bind_eq_ok.mp hdec
  obtain ⟨rest, -, hdec⟩ := bind_eq_ok.mp hdec
  cases rest with
  | none => cases hdec
  | some rest =>
    simp only [Option.map_some, Except.ok.injEq, Option.some.injEq, Prod.mk.injEq,
      List.cons.injEq] at hdec
    obtain ⟨⟨ha, -⟩, -⟩ := hdec
    apply Answer.blank_of_shifted hhead
    · rw [← ha]
    · rw [← ha]
    · rw [← ha]
    · rw [← ha]

theorem decodeAnswers_zero (hzero : datagram W pos = .ok 0) :
    decodeAnswers (datagram W) W.length (n + 1) pos = .ok none := by
  have hempty : ReadAs (datagram W) W.length pos [] pos := ⟨1, wordsLoop_terminator hzero⟩
  rw [decodeAnswers, hempty.decode_datagram, ok_bind]
  rfl

/-- A record whose name is written out is not read back unless it is blank, and nothing is read
behind it. -/
theorem decodeAnswers_literal {a : Answer} {as : List Answer} {octets : Bytes} {p : ℕ}
    (hdata : a.data.length = a.data_length.toNat) (h : WrittenAs pre octets a.name true)
    (hW : W = pre ++ (octets ++ (a.entry.fields ++ post))) (hlen : W.length < 16384)
    (hdec : decodeAnswers (datagram W) W.length (n + 1) pre.length = .ok (some (a :: as, p))) :
    a.Blank ∧ n = 0 := by
  obtain ⟨labels, rfl, hword⟩ := h.literal hW hlen
  have hne := name_ne_of_decodeAnswers hword hdec
  have hblank := blank_of_decodeAnswers (pre ++ labels) post hne hword (by rw [hW]; simp) hdec
  refine ⟨hblank, ?_⟩
  have hfields := hblank.fields_eq hdata
  have hstep := decodeAnswers_step (n := n) (pre ++ labels) (0 :: post) hne hword
    (by rw [hW, hfields]; simp) rfl hdata
  rw [hstep, hfields] at hdec
  cases n with
  | zero => rfl
  | succ n =>
    have hzero : datagram W ((pre ++ labels).length + 10) = .ok 0 := by
      have hcat : W = (pre ++ labels ++ [0, 0, 0, 0, 0, 0, 0, 0, 0, 0]) ++ 0 :: post := by
        rw [hW, hfields]
        simp
      rw [hcat]
      exact datagram_append (by simp [Nat.add_assoc])
    have hten : ([0, 0, 0, 0, 0, 0, 0, 0, 0, 0] : Bytes).length = 10 := rfl
    rw [hten, decodeAnswers_zero hzero] at hdec
    cases hdec

end DnsPackage

end Sese
