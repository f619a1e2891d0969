import Sese.Net.Dns.Suffixes
import Sese.Net.Dns.WireForm

/-!
# Compressed names

A name is written out up to the first suffix that has a position, and a pointer to that
position stands for the rest. The new positions are those of the suffixes that were written
out, so in the package so far every position is one where its suffix can be read.

The numbers of the suffixes are counted with 16 bits. While the labels of all names together are
fewer than `2^16`, different suffixes have different numbers.
-/
namespace Sese

open Foundation

namespace DnsPackage

def labelCount (name : Bytes) : ℕ := (split name dot).length

namespace Index

/-- The index with the positions `place`. -/
def placed (index : Index) (place : Bytes → UInt16) : Index :=
  { index with compress_index := index.compress_index.map fun e => { e with pos := place e.name } }

theorem placed_zero {index : Index} (h : index.Fresh) : index.placed (fun _ => 0) = index := by
  have hmap : (index.compress_index.map fun e => { e with pos := 0 }) = index.compress_index := by
    conv_rhs => rw [← List.map_id index.compress_index]
    apply List.map_congr_left
    intro e he
    rw [← h.pos e he]
    rfl
  rw [placed, hmap]

theorem setPos_placed (index : Index) (place : Bytes → UInt16) (name : Bytes) (pos : UInt16) :
    (index.placed place).setPos name pos = index.placed (Function.update place name pos) := by
  unfold placed setPos
  congr 1
  rw [List.map_map]
  apply List.map_congr_left
  intro e _
  by_cases he : e.name = name
  · simp [he]
  · simp [he]

def Distinct (index : Index) : Prop := (index.compress_index.map (·.index)).Nodup

variable {index : Index} {item : Bytes} {ls : List Bytes} {numbers : List UInt16}

theorem Numbers.mem_iff (h : index.Numbers item ls (suffixNames ls) numbers) (hf : index.Fresh)
    (hd : index.Distinct) {e : CompressIndex} (he : e ∈ index.compress_index) :
    e.index ∈ numbers ↔ e.name ∈ suffixNames ls := by
  constructor
  · intro hn
    obtain ⟨e', he', hindex, hname⟩ := h.sound _ hn
    have heq : e' = e := List.inj_on_of_nodup_map hd he' he hindex
    exact heq ▸ hname
  · intro hname
    obtain ⟨e', he', hname', hn⟩ := h.complete _ hname
    have heq : e' = e := List.inj_on_of_nodup_map hf.nodup he' he hname'
    exact heq ▸ hn

/-- Sorted, they are the suffixes of the name, and have the positions of the index. -/
theorem Numbers.sorted (h : index.Numbers item ls (suffixNames ls) numbers) (hf : index.Fresh)
    (hd : index.Distinct) (place : Bytes → UInt16) :
    ((index.placed place).getSortedIndexes numbers).map (·.name) = suffixNames ls ∧
    ∀ e ∈ (index.placed place).getSortedIndexes numbers, e.pos = place e.name := by
  have hperm := List.perm_insertionSort (fun a b : CompressIndex => b.name.length ≤ a.name.length)
    ((index.placed place).compress_index.filter fun e => e.index ∈ numbers)
  have hsorted := List.pairwise_insertionSort
    (fun a b : CompressIndex => b.name.length ≤ a.name.length)
    ((index.placed place).compress_index.filter fun e => e.index ∈ numbers)
  have hnames : ∀ s, s ∈ (((index.placed place).compress_index.filter fun e =>
      e.index ∈ numbers).map (·.name)) ↔ s ∈ suffixNames ls := by
    intro s
    simp only [List.mem_map, List.mem_filter, placed, decide_eq_true_eq]
    constructor
    · rintro ⟨_, ⟨⟨e, he, rfl⟩, hn⟩, rfl⟩
      exact (h.mem_iff hf hd he).mp hn
    · intro hs
      obtain ⟨e, he, rfl, hn⟩ := h.complete s hs
      exact ⟨_, ⟨⟨e, he, rfl⟩, hn⟩, rfl⟩
  have hnodup : (((index.placed place).compress_index.filter fun e =>
      e.index ∈ numbers).map (·.name)).Nodup := by
    apply List.Nodup.sublist (List.filter_sublist.map _)
    rw [placed, List.map_map]
    exact hf.nodup
  have hmap : (((index.placed place).getSortedIndexes numbers).map (·.name)).Perm
      (suffixNames ls) :=
    (hperm.map _).trans ((List.perm_ext_iff_of_nodup hnodup (suffixNames_nodup ls)).mpr hnames)
  constructor
  · have hleft : (((index.placed place).getSortedIndexes numbers).map (·.name)).Pairwise
        fun s t => t.length ≤ s.length := List.pairwise_map.mpr hsorted
    have hright : (suffixNames ls).Pairwise fun s t => t.length ≤ s.length :=
      (suffixNames_pairwise ls).imp Nat.le_of_lt
    apply List.Perm.eq_of_pairwise ?_ hleft hright hmap
    intro s t hs ht hst hts
    exact eq_of_mem_suffixNames (hmap.subset hs) ht (Nat.le_antisymm hts hst)
  · intro e he
    have hmem := List.mem_of_mem_filter (hperm.subset he)
    obtain ⟨e', -, rfl⟩ := List.mem_map.mp hmem
    rfl

/-- The labels in front of the first suffix with a position, and the labels of that suffix. -/
def cut (place : Bytes → UInt16) : List Bytes → List Bytes × List Bytes
  | [] => ([], [])
  | l :: ls =>
    if place (joinDots (l :: ls)) = 0 then (l :: (cut place ls).1, (cut place ls).2)
    else ([], l :: ls)

/-- A pointer to the suffix with these labels, or the end of a name without a pointer. -/
def ending (place : Bytes → UInt16) (rest : List Bytes) : Bytes :=
  if rest = [] then [0] else toBigEndian16 (createPointer (place (joinDots rest))).toNat

def compressed (place : Bytes → UInt16) (ls : List Bytes) : Bytes :=
  labelBytes (cut place ls).1 ++ ending place (cut place ls).2

/-- The positions after the name `fullname` was written at `offset`; `place` are those before. -/
def relocate (fullname : Bytes) (offset : UInt16) (place : Bytes → UInt16) :
    List Bytes → (Bytes → UInt16) → Bytes → UInt16
  | [], now => now
  | l :: ls, now =>
    if place (joinDots (l :: ls)) ≠ 0 then now
    else relocate fullname offset place ls (Function.update now (joinDots (l :: ls))
      (offset + .ofNat (fullname.length - (joinDots (l :: ls)).length)))

theorem cut_append (place : Bytes → UInt16) (ls : List Bytes) :
    (cut place ls).1 ++ (cut place ls).2 = ls := by
  induction ls with
  | nil => rfl
  | cons l ls ih =>
    rw [cut]
    split_ifs
    · rw [List.cons_append, ih]
    · rfl

/-- The suffix that a pointer stands for has a position. -/
theorem place_cut (place : Bytes → UInt16) {ls : List Bytes} (h : (cut place ls).2 ≠ []) :
    place (joinDots (cut place ls).2) ≠ 0 := by
  induction ls with
  | nil => exact absurd rfl h
  | cons l ls ih =>
    rw [cut] at h ⊢
    split_ifs at h ⊢ with hplace
    · exact ih h
    · exact hplace

theorem wordsBytes_eq {place : Bytes → UInt16} {items : List CompressIndex} {ls : List Bytes}
    (hnames : items.map (·.name) = suffixNames ls) (hpos : ∀ e ∈ items, e.pos = place e.name) :
    wordsBytes items ls = .ok (compressed place ls) := by
  induction ls generalizing items with
  | nil =>
    rw [suffixNames, List.map_eq_nil_iff] at hnames
    rw [hnames]
    rfl
  | cons l ls ih =>
    rw [suffixNames] at hnames
    obtain ⟨item, items, rfl, hname, hnames⟩ := List.map_eq_cons_iff.mp hnames
    have hitem := hpos item List.mem_cons_self
    rw [hname] at hitem
    rw [wordsBytes]
    unfold compressed
    rw [cut, hitem]
    by_cases hplace : place (joinDots (l :: ls)) = 0
    · rw [if_pos hplace, if_pos hplace, ih hnames fun e he => hpos e (List.mem_cons_of_mem _ he),
        ok_bind]
      simp [compressed]
    · rw [if_neg hplace, if_neg hplace]
      rfl

theorem updatePosLoop_eq {index : Index} {place now : Bytes → UInt16} {fullname : Bytes}
    {offset : UInt16} {items : List CompressIndex} {ls : List Bytes}
    (hnames : items.map (·.name) = suffixNames ls) (hpos : ∀ e ∈ items, e.pos = place e.name) :
    updatePosLoop fullname offset items (index.placed now) =
      index.placed (relocate fullname offset place ls now) := by
  induction ls generalizing items now with
  | nil =>
    rw [suffixNames, List.map_eq_nil_iff] at hnames
    rw [hnames]
    rfl
  | cons l ls ih =>
    rw [suffixNames] at hnames
    obtain ⟨item, items, rfl, hname, hnames⟩ := List.map_eq_cons_iff.mp hnames
    have hitem := hpos item List.mem_cons_self
    rw [hname] at hitem
    rw [updatePosLoop, relocate, hitem, hname, setPos_placed]
    split_ifs
    · rfl
    · exact ih hnames fun e he => hpos e (List.mem_cons_of_mem _ he)

theorem nameBytes_placed {index : Index} (hf : index.Fresh) (hd : index.Distinct)
    {place : Bytes → UInt16} {name : Bytes} {ls : List Bytes} {numbers : List UInt16}
    (hname : Spells ls name) (hnum : index.Numbers name ls (suffixNames ls) numbers) (base : ℕ) :
    nameBytes (index.placed place) name base =
      .ok (compressed place ls, index.placed (relocate name (.ofNat base) place ls place)) := by
  obtain ⟨hnames, hpos⟩ := hnum.sorted hf hd place
  have hupdate : (index.placed place).updatePos ((index.placed place).getSortedIndexes numbers)
      (.ofNat base) = index.placed (relocate name (.ofNat base) place ls place) := by
    obtain ⟨l, ls, rfl⟩ := List.exists_cons_of_ne_nil hname.ne_nil
    obtain ⟨item, items, hitems, hitem, -⟩ := List.map_eq_cons_iff.mp hnames
    rw [hitems, updatePos, hitem, ← hname.name, ← hitems]
    exact updatePosLoop_eq hnames hpos
  have hlookup : (index.placed place).compress_mapping.lookup name = some numbers := hnum.lookup
  rw [nameBytes, hlookup]
  dsimp only
  rw [encodeWords, hname.split_eq, wordsBytes_eq hnames hpos, ok_bind, hupdate]

theorem relocate_apply {fullname : Bytes} {offset : UInt16} {place now : Bytes → UInt16}
    {ls : List Bytes} (s : Bytes) :
    relocate fullname offset place ls now s =
      if s ∈ (suffixNames ls).take (cut place ls).1.length
      then offset + .ofNat (fullname.length - s.length) else now s := by
  induction ls generalizing now with
  | nil => rfl
  | cons l ls ih =>
    rw [relocate, cut, suffixNames]
    by_cases hplace : place (joinDots (l :: ls)) = 0
    · rw [if_neg (not_not.mpr hplace), if_pos hplace, ih, List.length_cons, List.take_succ_cons]
      by_cases hs : s = joinDots (l :: ls)
      · simp [hs]
      · simp [hs]
    · simp [hplace]

theorem exists_of_mem_take_suffixNames {ls : List Bytes} {k : ℕ} {s : Bytes}
    (h : s ∈ (suffixNames ls).take k) :
    ∃ a b, ls = a ++ b ∧ b ≠ [] ∧ a.length < k ∧ s = joinDots b := by
  induction ls generalizing k with
  | nil => simp [suffixNames] at h
  | cons l ls ih =>
    cases k with
    | zero => simp at h
    | succ k =>
      rw [suffixNames, List.take_succ_cons] at h
      rcases List.mem_cons.mp h with rfl | h
      · exact ⟨[], l :: ls, rfl, List.cons_ne_nil _ _, Nat.succ_pos k, rfl⟩
      · obtain ⟨a, b, rfl, hb, hlt, rfl⟩ := ih h
        exact ⟨l :: a, b, rfl, hb, Nat.succ_lt_succ hlt, rfl⟩

/-- The numbers are different, and are at most `low` or among the last `pos` ones. -/
structure Building.Counting (b : Building) (low pos : ℕ) : Prop where
  distinct : b.Distinct
  le : ∀ e ∈ b.compress_index, e.index.toNat ≤ low ∨
    b.count.toNat < e.index.toNat + pos ∧ e.index.toNat ≤ b.count.toNat

theorem Building.Counting.addSuffix {b : Building} {low pos : ℕ} (h : b.Counting low pos)
    (item name : Bytes) (hpos : low + pos < b.count.toNat) :
    (b.addSuffix item name pos).1.Counting low (b.addSuffix item name pos).2 ∧
    (b.addSuffix item name pos).1.count = b.count ∧ (b.addSuffix item name pos).2 ≤ pos + 1 := by
  unfold Building.addSuffix
  cases hfind : b.compress_index.find? fun e => e.name = name with
  | some e => exact ⟨⟨h.distinct, h.le⟩, rfl, Nat.le_succ pos⟩
  | none =>
    have hlt := b.count.toNat_lt
    have hnumber : (b.count - .ofNat pos).toNat = b.count.toNat - pos := by
      rw [UInt16.toNat_sub, UInt16.toNat_ofNat']
      omega
    refine ⟨⟨?_, ?_⟩, rfl, Nat.le_refl _⟩
    · change ((b.compress_index ++ _).map _).Nodup
      rw [List.map_append]
      apply List.Nodup.append h.distinct (List.nodup_singleton _)
      intro n hn hn'
      obtain ⟨e, he, rfl⟩ := List.mem_map.mp hn
      have heq : e.index = b.count - .ofNat pos := by simpa using hn'
      have := h.le e he
      rw [heq, hnumber] at this
      omega
    · intro e he
      rcases List.mem_append.mp he with he | he
      · rcases h.le e he with hle | ⟨hlt, hle⟩
        · exact .inl hle
        · exact .inr ⟨Nat.lt_succ_of_lt hlt, hle⟩
      · rw [List.mem_singleton.mp he]
        apply Or.inr
        change b.count.toNat < (b.count - .ofNat pos).toNat + (pos + 1) ∧
          (b.count - .ofNat pos).toNat ≤ b.count.toNat
        rw [hnumber]
        omega

theorem Building.Counting.addSuffixes {b : Building} {low pos : ℕ} (h : b.Counting low pos)
    (item : Bytes) (words : List Bytes) (name : Bytes) (first : Bool)
    (hpos : low + pos + words.length ≤ b.count.toNat) :
    ∃ pos', (Building.addSuffixes item words name first pos b).Counting low pos' ∧
      (Building.addSuffixes item words name first pos b).count = b.count := by
  induction words generalizing b name first pos with
  | nil => exact ⟨pos, h, rfl⟩
  | cons word words ih =>
    rw [List.length_cons] at hpos
    obtain ⟨hnext, hcount, hle⟩ := h.addSuffix item
      (word ++ (if first then name else dot ++ name)) (by omega)
    obtain ⟨pos', h', hcount'⟩ := ih hnext _ _ (by rw [hcount]; omega)
    exact ⟨pos', h', hcount'.trans hcount⟩

theorem Building.Counting.addName {b : Building} (h : b.Counting b.count.toNat 0) (item : Bytes)
    (hcount : b.count.toNat + labelCount item < 65536) :
    (b.addName item).Counting (b.addName item).count.toNat 0 ∧
      (b.addName item).count.toNat = b.count.toNat + labelCount item := by
  have hsum : (b.count + .ofNat (labelCount item)).toNat = b.count.toNat + labelCount item := by
    rw [UInt16.toNat_add, UInt16.toNat_ofNat']
    omega
  have hopened : (b.opened item (b.count + .ofNat (labelCount item))).Counting b.count.toNat 0 ∧
      (b.opened item (b.count + .ofNat (labelCount item))).count.toNat =
        b.count.toNat + labelCount item := by
    rw [← hsum]
    unfold Building.opened
    split_ifs
    · refine ⟨⟨h.distinct, ?_⟩, rfl⟩
      intro e he
      have := h.le e he
      exact .inl (by omega)
    · refine ⟨⟨h.distinct, ?_⟩, rfl⟩
      intro e he
      have := h.le e he
      exact .inl (by omega)
  have haddName : b.addName item = Building.addSuffixes item
      ((split item dot).take (labelCount item % 65536)).reverse [] true 0
      (b.opened item (b.count + .ofNat (labelCount item))) := rfl
  obtain ⟨pos, hall, hsame⟩ := hopened.1.addSuffixes item
    ((split item dot).take (labelCount item % 65536)).reverse [] true (by
      rw [hopened.2, List.length_reverse, List.length_take, labelCount]
      omega)
  rw [← haddName] at hall hsame
  rw [← hsame] at hopened
  constructor
  · refine ⟨hall.distinct, ?_⟩
    intro e he
    have := hall.le e he
    exact .inl (by omega)
  · exact hopened.2

/-- Different suffixes have different numbers if all labels can be counted. -/
theorem build_distinct {names : List Bytes} (h : (names.map labelCount).sum < 65536) :
    (build names).Distinct := by
  have hfold : ∀ (rest : List Bytes) (b : Building), b.Counting b.count.toNat 0 →
      b.count.toNat + (rest.map labelCount).sum < 65536 →
      (rest.foldl Building.addName b).Distinct := by
    intro rest
    induction rest with
    | nil =>
      intro b hb _
      exact hb.distinct
    | cons name rest ih =>
      intro b hb hsum
      rw [List.map_cons, List.sum_cons] at hsum
      obtain ⟨hnext, hcount⟩ := hb.addName name (by omega)
      exact ih _ hnext (by rw [hcount]; omega)
  have hempty : ({ empty with count := 0 } : Building).Counting 0 0 := by
    refine ⟨List.nodup_nil, ?_⟩
    intro e he
    cases he
  apply hfold names _ hempty
  change 0 + _ < _
  rwa [Nat.zero_add]

end Index

end DnsPackage

end Sese
