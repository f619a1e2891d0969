import Sese.Net.Dns.Compression

/-!
# Where the names of a package can be read

`Located` is the invariant of the encoder: in every package that starts with what has been
written so far, a suffix with a position is read there. `Laid` says where the entries of a
package are.
-/
namespace Sese

open Foundation

namespace DnsPackage

open Index

/-- The last label of a name, which is what decides whether it is compressed. -/
def lastLabel (name : Bytes) : Option Bytes := (split name dot).getLast?

/-- The suffixes with a position can be read there, whatever comes behind `pre`, and they are
those whose last label is that of a name before. -/
structure Located (pre : Bytes) (seen : List (Option Bytes)) (place : Bytes → UInt16) : Prop where
  le : ∀ ls name, Spells ls name → place name ≠ 0 → (place name).toNat ≤ pre.length
  reads : ∀ ls name, Spells ls name → place name ≠ 0 → ∀ post, (pre ++ post).length < 16384 →
    ∃ e, ReadAs (datagram (pre ++ post)) (pre ++ post).length (place name).toNat name e
  last : ∀ ls name, Spells ls name → place name ≠ 0 → ls.getLast? ∈ seen
  place : ∀ l, Label l → some l ∈ seen → place l ≠ 0

variable {pre : Bytes} {seen : List (Option Bytes)} {place : Bytes → UInt16} {name : Bytes}
  {ls : List Bytes}

theorem Spells.suffix {a b : List Bytes} (h : Spells (a ++ b) name) (hb : b ≠ []) :
    Spells b (joinDots b) where
  ne_nil := hb
  label l hl := h.label l (List.mem_append_right a hl)
  name := rfl

theorem Spells.lastLabel_eq (h : Spells ls name) : lastLabel name = ls.getLast? := by
  rw [lastLabel, h.split_eq]

theorem cut_snd_eq_nil (h : (cut place ls).2 = []) {a b : List Bytes} (hab : ls = a ++ b)
    (hb : b ≠ []) : place (joinDots b) = 0 := by
  induction ls generalizing a with
  | nil => exact absurd (List.append_eq_nil_iff.mp hab.symm).2 hb
  | cons l ls ih =>
    rw [cut] at h
    split_ifs at h with hplace
    cases a with
    | nil =>
      rw [List.nil_append] at hab
      exact hab ▸ hplace
    | cons l' a => exact ih h (List.cons.inj hab).2

/-- A name is compressed exactly if a name before has the same last label. -/
theorem Located.compressed_iff (h : Located pre seen place) (hname : Spells ls name) :
    (cut place ls).2 ≠ [] ↔ lastLabel name ∈ seen := by
  rw [hname.lastLabel_eq]
  constructor
  · intro hne
    have hsplit : Spells ((cut place ls).1 ++ (cut place ls).2) name := by
      rw [cut_append]
      exact hname
    have hlast := h.last _ _ (hsplit.suffix hne) (place_cut place hne)
    have heq : ls.getLast? = (cut place ls).2.getLast? := by
      conv_lhs => rw [← cut_append place ls]
      exact List.getLast?_append_of_ne_nil _ hne
    rwa [heq]
  · intro hseen hnil
    obtain ⟨a, l, rfl⟩ := List.eq_nil_or_concat' ls |>.resolve_left hname.ne_nil
    rw [List.getLast?_concat] at hseen
    have hl : Label l := hname.label l (List.mem_append_right a (List.mem_singleton_self l))
    exact h.place l hl hseen (cut_snd_eq_nil hnil rfl (List.cons_ne_nil l []))

/-- How much of the octets of a name is behind its end, as the decoder sees it. -/
def behind (place : Bytes → UInt16) (ls : List Bytes) : ℕ := if (cut place ls).2 = [] then 1 else 0

/-- The suffixes that are written out can be read where they are written. -/
theorem Located.suffix_reads (h : Located pre seen place) (hname : Spells ls name)
    {a c : List Bytes} (hac : (cut place ls).1 = a ++ c) {post W : Bytes}
    (hW : W = pre ++ (compressed place ls ++ post)) (hlen : W.length < 16384) :
    ReadAs (datagram W) W.length (pre.length + (labelBytes a).length)
      (joinDots (c ++ (cut place ls).2))
      (pre.length + (compressed place ls).length - behind place ls) := by
  have hcut := cut_append place ls
  have hstart : (pre ++ labelBytes a).length = pre.length + (labelBytes a).length :=
    List.length_append
  have hlabels : ∀ l ∈ c, Label l := by
    intro l hl
    apply hname.label
    rw [← hcut, hac]
    exact List.mem_append_left _ (List.mem_append_right _ hl)
  by_cases hrest : (cut place ls).2 = []
  · have hlit : compressed place ls = labelBytes a ++ (labelBytes c ++ [0]) := by
      rw [compressed, hac, ending, if_pos hrest, labelBytes_append, List.append_assoc]
    have hcat : W = (pre ++ labelBytes a) ++ (labelBytes c ++ 0 :: post) := by
      rw [hW, hlit]
      simp
    rw [behind, if_pos hrest, hrest, List.append_nil, hlit]
    rw [hcat] at hlen ⊢
    have hread := readAs_literal hlabels hlen
    rw [hstart] at hread
    convert hread using 1
    simp only [List.length_append, List.length_cons, List.length_nil]
    omega
  · have hspells : Spells ((cut place ls).1 ++ (cut place ls).2) name := hcut.symm ▸ hname
    have hsuffix := hspells.suffix hrest
    have hplace := place_cut place hrest
    have hcat : W = (pre ++ labelBytes a) ++ (labelBytes c ++
        (toBigEndian16 (createPointer (place (joinDots (cut place ls).2))).toNat ++ post)) := by
      rw [hW, compressed, hac, ending, if_neg hrest, labelBytes_append]
      simp
    have hle := h.le _ _ hsuffix hplace
    have hpre : pre.length ≤ W.length := by
      rw [hW, List.length_append]
      omega
    obtain ⟨e, he⟩ := h.reads _ _ hsuffix hplace (compressed place ls ++ post) (hW ▸ hlen)
    rw [← hW] at he
    have hread := readAs_pointer hlabels (Nat.lt_of_le_of_lt (hle.trans hpre) hlen) hrest
      hsuffix.name_ne_nil hcat hlen (hle.trans hpre) he
    rw [hstart] at hread
    rw [behind, if_neg hrest, compressed, hac, ending, if_neg hrest]
    convert hread using 1
    simp only [labelBytes_append, List.length_append, toBigEndian16, List.length_cons,
      List.length_nil]
    omega

theorem relocate_written (hname : Spells ls name) {s : Bytes}
    (hs : s ∈ (suffixNames ls).take (cut place ls).1.length) {base : ℕ}
    (hlen : base + (compressed place ls).length < 16384) :
    ∃ a c, (cut place ls).1 = a ++ c ∧ ls = a ++ (c ++ (cut place ls).2) ∧
      s = joinDots (c ++ (cut place ls).2) ∧ c ≠ [] ∧
      ((.ofNat base : UInt16) + .ofNat (name.length - s.length)).toNat =
        base + (labelBytes a).length := by
  obtain ⟨a, b, hab, hb, hlt, rfl⟩ := exists_of_mem_take_suffixNames hs
  have hcut := cut_append place ls
  obtain ⟨c, hac, hcb⟩ : ∃ c, (cut place ls).1 = a ++ c ∧ b = c ++ (cut place ls).2 := by
    rw [hab] at hcut
    rcases List.append_eq_append_iff.mp hcut with ⟨c, ha, -⟩ | ⟨c, hac, hcb⟩
    · rw [← hab] at ha
      rw [ha, List.length_append] at hlt
      omega
    · rw [← hab] at hac hcb
      exact ⟨c, hac, hcb⟩
  have hc : c ≠ [] := by
    rintro rfl
    rw [hac, List.append_nil] at hlt
    exact Nat.lt_irrefl _ hlt
  have h₁ := length_joinDots hname.ne_nil
  have h₂ := length_joinDots hb
  rw [← hname.name] at h₁
  rw [hab, labelBytes_append, List.length_append] at h₁
  have hbytes : (labelBytes a).length ≤ (compressed place ls).length := by
    rw [compressed, hac, labelBytes_append, List.length_append, List.length_append]
    omega
  refine ⟨a, c, hac, hcb ▸ hab, by rw [hcb], hc, ?_⟩
  rw [UInt16.toNat_add, UInt16.toNat_ofNat', UInt16.toNat_ofNat']
  omega

/-- Writing a name keeps the invariant, and the last label of the name is one of those seen. -/
theorem Located.write (h : Located pre seen place) (hname : Spells ls name) (hpos : 0 < pre.length)
    (hlen : (pre ++ compressed place ls).length < 16384) :
    Located (pre ++ compressed place ls) (lastLabel name :: seen)
      (relocate name (.ofNat pre.length) place ls place) := by
  have hlen' : pre.length + (compressed place ls).length < 16384 := by
    rwa [← List.length_append]
  have hcut := cut_append place ls
  constructor
  · intro ls' s hs hplace
    rw [relocate_apply] at hplace ⊢
    rw [List.length_append]
    split_ifs at hplace ⊢ with hmem
    · obtain ⟨a, c, hac, -, -, -, hpos'⟩ := relocate_written hname hmem hlen'
      rw [hpos', compressed, hac, labelBytes_append, List.length_append, List.length_append]
      omega
    · have := h.le ls' s hs hplace
      omega
  · intro ls' s hs hplace post hpost
    rw [relocate_apply] at hplace ⊢
    split_ifs at hplace ⊢ with hmem
    · obtain ⟨a, c, hac, -, rfl, -, hpos'⟩ := relocate_written hname hmem hlen'
      rw [hpos']
      exact ⟨_, h.suffix_reads hname hac (List.append_assoc _ _ _) hpost⟩
    · rw [List.append_assoc] at hpost ⊢
      exact h.reads ls' s hs hplace _ hpost
  · intro ls' s hs hplace
    rw [relocate_apply] at hplace
    split_ifs at hplace with hmem
    · obtain ⟨a, c, hac, hls, rfl, hc, -⟩ := relocate_written hname hmem hlen'
      have hne : c ++ (cut place ls).2 ≠ [] := by simp [hc]
      have heq : ls' = c ++ (cut place ls).2 :=
        hs.unique ((hls ▸ hname : Spells (a ++ (c ++ (cut place ls).2)) name).suffix hne)
      rw [heq, hname.lastLabel_eq]
      conv in ls.getLast? => rw [hls]
      rw [List.getLast?_append_of_ne_nil _ hne]
      exact List.mem_cons_self
    · exact List.mem_cons_of_mem _ (h.last ls' s hs hplace)
  · intro l hl hseen
    rw [relocate_apply]
    split_ifs with hmem
    · obtain ⟨a, c, -, -, -, -, hpos'⟩ := relocate_written hname hmem hlen'
      intro hzero
      rw [hzero] at hpos'
      have : (0 : UInt16).toNat = 0 := rfl
      omega
    · rcases List.mem_cons.mp hseen with heq | hseen
      · -- the last label of the name itself: it is written out, or it had a position
        by_cases hrest : (cut place ls).2 = []
        · exfalso
          rw [hrest, List.append_nil] at hcut
          rw [hcut, List.take_of_length_le (by rw [length_suffixNames])] at hmem
          rw [hname.lastLabel_eq] at heq
          obtain ⟨a, hal⟩ := List.getLast?_eq_some_iff.mp heq.symm
          exact hmem (mem_suffixNames.mpr ⟨a, [l], hal, List.cons_ne_nil _ _, rfl⟩)
        · exact h.place l hl (heq ▸ (h.compressed_iff hname).mp hrest)
      · exact h.place l hl hseen

/-- Behind `pre` the octets `octets` are read as `name`; if they are written out (`lit`), the
decoder stops at the zero at their end, and otherwise behind them. -/
structure WrittenAs (pre octets name : Bytes) (lit : Bool) : Prop where
  zero : lit = true → ∃ labels, octets = labels ++ [0]
  reads : ∀ post, (pre ++ (octets ++ post)).length < 16384 →
    ReadAs (datagram (pre ++ (octets ++ post))) (pre ++ (octets ++ post)).length pre.length name
      (pre.length + octets.length - if lit then 1 else 0)

/-- Behind `pre` the octets `bs` are those of the entries; the names that are written out are
marked. -/
inductive Written : Bytes → List Entry → Bytes → List Bool → Prop
  | nil {pre : Bytes} : Written pre [] [] []
  | cons {pre octets rest : Bytes} {e : Entry} {es : List Entry} {lit : Bool} {lits : List Bool} :
      WrittenAs pre octets e.name lit → Written (pre ++ (octets ++ e.fields)) es rest lits →
      Written pre (e :: es) (octets ++ (e.fields ++ rest)) (lit :: lits)

/-- Which names are written out, given the last labels of the names before. -/
def literals (seen : List (Option Bytes)) : List Entry → List Bool
  | [] => []
  | e :: es => decide (lastLabel e.name ∉ seen) :: literals (lastLabel e.name :: seen) es

def seenAfter (seen : List (Option Bytes)) : List Entry → List (Option Bytes)
  | [] => seen
  | e :: es => seenAfter (lastLabel e.name :: seen) es

theorem Located.extend (h : Located pre seen place) (more : Bytes) :
    Located (pre ++ more) seen place where
  le ls name hs hplace := (h.le ls name hs hplace).trans (by rw [List.length_append]; omega)
  reads ls name hs hplace post hlen := by
    rw [List.append_assoc] at hlen ⊢
    exact h.reads ls name hs hplace _ hlen
  last := h.last
  place := h.place

theorem Located.writtenAs (h : Located pre seen place) (hname : Spells ls name) :
    WrittenAs pre (compressed place ls) name (decide (lastLabel name ∉ seen)) := by
  have hbehind : behind place ls = if decide (lastLabel name ∉ seen) then 1 else 0 := by
    rw [behind]
    by_cases hrest : (cut place ls).2 = []
    · rw [if_pos hrest, if_pos]
      rw [decide_eq_true_eq, ← h.compressed_iff hname]
      exact not_not.mpr hrest
    · rw [if_neg hrest, if_neg]
      rw [decide_eq_true_eq, ← h.compressed_iff hname]
      exact not_not.mpr hrest
  constructor
  · intro hlit
    rw [decide_eq_true_eq, ← h.compressed_iff hname, not_not] at hlit
    exact ⟨labelBytes (cut place ls).1, by rw [compressed, ending, if_pos hlit]⟩
  · intro post hlen
    have hread := h.suffix_reads hname (List.nil_append (cut place ls).1).symm rfl hlen
    rwa [cut_append, ← hname.name, labelBytes_nil, List.length_nil, Nat.add_zero, hbehind] at hread

theorem writtenAs_literal (hname : Spells ls name) : WrittenAs pre (literalWords name) name true where
  zero _ := ⟨_, rfl⟩
  reads post hlen := by
    rw [literalWords, hname.split_eq, List.append_assoc, List.cons_append, List.nil_append] at hlen ⊢
    have hread := readAs_literal hname.label hlen
    rw [← hname.name] at hread
    have hend : pre.length + (labelBytes ls ++ [0]).length - 1 =
        pre.length + (labelBytes ls).length := by
      rw [List.length_append, List.length_singleton, ← Nat.add_assoc, Nat.add_sub_cancel]
    rwa [if_pos rfl, hend]

def KnowsEntries (index : Index) (es : List Entry) : Prop :=
  ∀ e ∈ es, ∃ ls numbers, Spells ls e.name ∧ index.Numbers e.name ls (suffixNames ls) numbers

theorem wireEntries_of_known {index : Index} (hf : index.Fresh) (hd : index.Distinct)
    {es : List Entry} (hes : KnowsEntries index es) (place : Bytes → UInt16) (base : ℕ) :
    ∃ bs place', wireEntries es base (index.placed place) = .ok (bs, index.placed place') := by
  induction es generalizing place base with
  | nil => exact ⟨[], place, rfl⟩
  | cons e es ih =>
    obtain ⟨ls, numbers, hls, hnum⟩ := hes e List.mem_cons_self
    obtain ⟨bs, place', hbs⟩ := ih (fun e he => hes e (List.mem_cons_of_mem _ he))
      (relocate e.name (.ofNat base) place ls place)
      (base + (compressed place ls).length + e.fields.length)
    refine ⟨compressed place ls ++ (e.fields ++ bs), place', ?_⟩
    rw [wireEntries, nameBytes_placed hf hd hls hnum, ok_bind]
    dsimp only
    rw [hbs, ok_bind]

theorem Located.written {index : Index} (hf : index.Fresh) (hd : index.Distinct)
    {es : List Entry} (hes : KnowsEntries index es) (h : Located pre seen place)
    (hpos : 0 < pre.length) {bs : Bytes} {index' : Index}
    (hbs : wireEntries es pre.length (index.placed place) = .ok (bs, index'))
    (hlen : (pre ++ bs).length < 16384) :
    Written pre es bs (literals seen es) ∧
      ∃ place', index' = index.placed place' ∧ Located (pre ++ bs) (seenAfter seen es) place' := by
  induction es generalizing pre seen place bs with
  | nil =>
    cases hbs
    exact ⟨.nil, place, rfl, by rwa [List.append_nil]⟩
  | cons e es ih =>
    obtain ⟨ls, numbers, hls, hnum⟩ := hes e List.mem_cons_self
    obtain ⟨octets, index₁, rest, hname, hrest, rfl⟩ := wireEntries_cons hbs
    rw [nameBytes_placed hf hd hls hnum] at hname
    cases hname
    have hbase : pre.length + (compressed place ls).length + e.fields.length =
        (pre ++ (compressed place ls ++ e.fields)).length := by
      simp only [List.length_append, Nat.add_assoc]
    have hcat : pre ++ (compressed place ls ++ (e.fields ++ rest)) =
        (pre ++ (compressed place ls ++ e.fields)) ++ rest := by
      simp only [List.append_assoc]
    rw [hbase] at hrest
    rw [hcat] at hlen
    have hlen₁ : (pre ++ compressed place ls).length < 16384 := by
      simp only [List.length_append] at hlen ⊢
      omega
    have hnext := (h.write hls hpos hlen₁).extend e.fields
    rw [List.append_assoc] at hnext
    obtain ⟨hwritten, place', hplace', hlocated⟩ := ih
      (fun e he => hes e (List.mem_cons_of_mem _ he)) hnext (by rw [List.length_append]; omega)
      hrest hlen
    refine ⟨.cons (h.writtenAs hls) hwritten, place', hplace', ?_⟩
    rw [hcat]
    exact hlocated

/-- Without an index all names are written out. -/
theorem written_empty {es : List Entry} (hes : ∀ e ∈ es, ValidName e.name) (pre : Bytes) :
    ∃ bs, (∀ base, wireEntries es base .empty = .ok (bs, .empty)) ∧
      Written pre es bs (es.map fun _ => true) := by
  induction es generalizing pre with
  | nil => exact ⟨[], fun _ => rfl, .nil⟩
  | cons e es ih =>
    obtain ⟨ls, hls⟩ := hes e List.mem_cons_self
    obtain ⟨bs, hbs, hwritten⟩ := ih (fun e he => hes e (List.mem_cons_of_mem _ he))
      (pre ++ (literalWords e.name ++ e.fields))
    refine ⟨literalWords e.name ++ (e.fields ++ bs), ?_, .cons (writtenAs_literal hls) hwritten⟩
    intro base
    have hname : nameBytes .empty e.name base = .ok (literalWords e.name, .empty) := rfl
    rw [wireEntries, hname, ok_bind]
    dsimp only
    rw [hbs, ok_bind]

end DnsPackage

end Sese
