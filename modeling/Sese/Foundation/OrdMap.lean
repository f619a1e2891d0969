import Mathlib.Order.Defs.LinearOrder
import Mathlib.Data.List.Pairwise
import Mathlib.Tactic

/-!
# Ordered maps

An ordered associative container whose comparison is `rank a < rank b` for a
function `rank` into a linear order, so two keys of equal rank are the same key.
The entries are kept in a list that is strictly sorted by rank: iteration is the
traversal of the list, and no key is stored twice. Assigning to a key that is
already present keeps the key as it was first spelled and replaces the value.
-/
namespace Foundation

universe u v w
variable {κ : Type u} {ω : Type v} {α : Type w} [LinearOrder ω]

/-- An ordered map; `sorted` excludes lists that no sequence of insertions builds. -/
@[ext] structure OrdMap (rank : κ → ω) (α : Type w) where
  entries : List (κ × α)
  sorted : entries.Pairwise fun a b => rank a.1 < rank b.1
  deriving DecidableEq

namespace OrdMap

variable {rank : κ → ω}

/-- Assignment on the list of entries. -/
def insertEntry (rank : κ → ω) (k : κ) (x : α) : List (κ × α) → List (κ × α)
  | [] => [(k, x)]
  | (k', x') :: rest =>
    if rank k < rank k' then (k, x) :: (k', x') :: rest
    else if rank k' < rank k then (k', x') :: insertEntry rank k x rest
    else (k', x) :: rest

theorem rank_mem_insertEntry {k : κ} {x : α} {e : κ × α} {l : List (κ × α)}
    (h : e ∈ insertEntry rank k x l) : rank e.1 = rank k ∨ e ∈ l := by
  induction l with
  | nil =>
    simp only [insertEntry, List.mem_singleton] at h
    exact .inl (by rw [h])
  | cons a l ih =>
    simp only [insertEntry] at h
    split_ifs at h with h₁ h₂
    · rcases List.mem_cons.mp h with rfl | h
      · exact .inl rfl
      · exact .inr h
    · rcases List.mem_cons.mp h with rfl | h
      · exact .inr List.mem_cons_self
      · exact (ih h).imp_right (List.mem_cons_of_mem _)
    · rcases List.mem_cons.mp h with rfl | h
      · exact .inl (le_antisymm (not_lt.mp h₁) (not_lt.mp h₂))
      · exact .inr (List.mem_cons_of_mem _ h)

theorem insertEntry_sorted (k : κ) (x : α) {l : List (κ × α)}
    (h : l.Pairwise fun a b => rank a.1 < rank b.1) :
    (insertEntry rank k x l).Pairwise fun a b => rank a.1 < rank b.1 := by
  induction l with
  | nil => simp [insertEntry]
  | cons a l ih =>
    obtain ⟨ha, hl⟩ := List.pairwise_cons.mp h
    simp only [insertEntry]
    split_ifs with h₁ h₂
    · refine List.pairwise_cons.mpr ⟨fun b hb => ?_, h⟩
      rcases List.mem_cons.mp hb with rfl | hb
      · exact h₁
      · exact h₁.trans (ha b hb)
    · refine List.pairwise_cons.mpr ⟨fun b hb => ?_, ih hl⟩
      rcases rank_mem_insertEntry hb with hb | hb
      · exact hb ▸ h₂
      · exact ha b hb
    · exact List.pairwise_cons.mpr ⟨ha, hl⟩

def empty : OrdMap rank α := ⟨[], .nil⟩

def insert (m : OrdMap rank α) (k : κ) (x : α) : OrdMap rank α :=
  ⟨insertEntry rank k x m.entries, insertEntry_sorted k x m.sorted⟩

/-- Removal of a key; a key that is absent changes nothing. -/
def erase (m : OrdMap rank α) (k : κ) : OrdMap rank α :=
  ⟨m.entries.filter fun e => rank e.1 ≠ rank k, m.sorted.filter _⟩

def find? (m : OrdMap rank α) (k : κ) : Option α :=
  (m.entries.find? fun e => rank e.1 = rank k).map Prod.snd

def contains (m : OrdMap rank α) (k : κ) : Bool := (m.find? k).isSome

/-- Insertion of a key that is not there; a key that is there keeps its value. -/
def emplace (m : OrdMap rank α) (k : κ) (x : α) : OrdMap rank α :=
  if m.contains k then m else m.insert k x

def size (m : OrdMap rank α) : ℕ := m.entries.length

@[simp] theorem find?_insert_self (m : OrdMap rank α) (k : κ) (x : α) :
    (m.insert k x).find? k = some x := by
  obtain ⟨l, hl⟩ := m
  simp only [find?, insert]
  induction l with
  | nil => simp [insertEntry]
  | cons a l ih =>
    simp only [insertEntry]
    split_ifs with h₁ h₂
    · simp
    · simpa [h₂.ne] using ih (List.pairwise_cons.mp hl).2
    · simp [le_antisymm (not_lt.mp h₁) (not_lt.mp h₂)]

theorem find?_insert_of_ne (m : OrdMap rank α) {j k : κ} (x : α) (h : rank j ≠ rank k) :
    (m.insert k x).find? j = m.find? j := by
  obtain ⟨l, hl⟩ := m
  simp only [find?, insert]
  induction l with
  | nil => simp [insertEntry, h.symm]
  | cons a l ih =>
    simp only [insertEntry]
    split_ifs with h₁ h₂
    · simp [h.symm]
    · by_cases ha : rank a.1 = rank j
      · simp [ha]
      · simpa [ha] using ih (List.pairwise_cons.mp hl).2
    · have ha : rank a.1 = rank k := le_antisymm (not_lt.mp h₁) (not_lt.mp h₂)
      simp [ha, h.symm]

@[simp] theorem find?_erase_self (m : OrdMap rank α) (k : κ) : (m.erase k).find? k = none := by
  simp [find?, erase]

theorem find?_erase_of_ne (m : OrdMap rank α) {j k : κ} (h : rank j ≠ rank k) :
    (m.erase k).find? j = m.find? j := by
  obtain ⟨l, hl⟩ := m
  simp only [find?, erase]
  congr 1
  rw [List.find?_filter]
  congr 1
  funext e
  by_cases he : rank e.1 = rank j <;> simp [he, h]

theorem find?_eq_some_of_mem (m : OrdMap rank α) {e : κ × α} (h : e ∈ m.entries) :
    m.find? e.1 = some e.2 := by
  obtain ⟨l, hl⟩ := m
  simp only [find?] at *
  induction l with
  | nil => simp at h
  | cons a l ih =>
    obtain ⟨ha, hl⟩ := List.pairwise_cons.mp hl
    rcases List.mem_cons.mp h with rfl | h
    · simp
    · simpa [(ha e h).ne] using ih hl h

theorem find?_eq_none_iff (m : OrdMap rank α) (k : κ) :
    m.find? k = none ↔ ∀ e ∈ m.entries, rank e.1 ≠ rank k := by
  simp [find?]

theorem find?_cons_eq_none {a : κ × α} {l : List (κ × α)} {k : κ}
    (ha : ∀ e ∈ l, rank a.1 < rank e.1) (h : rank k < rank a.1) :
    ((a :: l).find? fun e => rank e.1 = rank k) = none := by
  rw [List.find?_eq_none]
  intro e he
  rcases List.mem_cons.mp he with rfl | he
  · simpa using h.ne'
  · simpa using (h.trans (ha e he)).ne'

theorem insertEntry_length_le (k : κ) (x : α) (l : List (κ × α)) :
    (insertEntry rank k x l).length ≤ l.length + 1 := by
  induction l with
  | nil => simp [insertEntry]
  | cons a l ih =>
    simp only [insertEntry]
    split_ifs <;> simp only [List.length_cons] at * <;> omega

theorem size_insert_le (m : OrdMap rank α) (k : κ) (x : α) : (m.insert k x).size ≤ m.size + 1 :=
  insertEntry_length_le k x m.entries

theorem size_insert_of_contains (m : OrdMap rank α) {k : κ} (x : α) {y : α}
    (h : m.find? k = some y) : (m.insert k x).size = m.size := by
  obtain ⟨l, hl⟩ := m
  simp only [find?, size, insert] at *
  induction l with
  | nil => simp at h
  | cons a l ih =>
    obtain ⟨ha, hl⟩ := List.pairwise_cons.mp hl
    simp only [insertEntry]
    split_ifs with h₁ h₂
    · rw [find?_cons_eq_none ha h₁] at h
      cases h
    · simp only [List.length_cons, Nat.add_right_cancel_iff]
      exact ih hl (by simpa [h₂.ne] using h)
    · rfl

theorem size_erase_le (m : OrdMap rank α) (k : κ) : (m.erase k).size ≤ m.size :=
  List.length_filter_le _ _

theorem insertEntry_append {k : κ} (x : α) {l : List (κ × α)} (h : ∀ e ∈ l, rank e.1 < rank k) :
    insertEntry rank k x l = l ++ [(k, x)] := by
  induction l with
  | nil => rfl
  | cons a l ih =>
    have ha := h a List.mem_cons_self
    simp only [insertEntry, if_neg ha.not_gt, if_pos ha, List.cons_append]
    rw [ih fun e he => h e (List.mem_cons_of_mem _ he)]

/-- Assigning to a key that is there replaces its value. -/
theorem insertEntry_mid {k : κ} (x y : α) {front back : List (κ × α)}
    (h : ∀ e ∈ front, rank e.1 < rank k) :
    insertEntry rank k y (front ++ (k, x) :: back) = front ++ (k, y) :: back := by
  induction front with
  | nil => simp [insertEntry]
  | cons a front ih =>
    have ha := h a List.mem_cons_self
    rw [List.cons_append, insertEntry, if_neg ha.not_gt, if_pos ha,
      ih fun e he => h e (List.mem_cons_of_mem _ he), List.cons_append]

theorem insert_mid {m : OrdMap rank α} {k : κ} {x : α} (y : α) {front back : List (κ × α)}
    (h : m.entries = front ++ (k, x) :: back) :
    (m.insert k y).entries = front ++ (k, y) :: back := by
  have hsorted := m.sorted
  rw [h] at hsorted
  have hfront := fun e he => (List.pairwise_append.mp hsorted).2.2 e he _ List.mem_cons_self
  calc insertEntry rank k y m.entries = insertEntry rank k y (front ++ (k, x) :: back) := by rw [h]
    _ = front ++ (k, y) :: back := insertEntry_mid x y hfront

theorem emplace_entries {m : OrdMap rank α} {k : κ} (x : α) (h : ∀ e ∈ m.entries, rank e.1 < rank k) :
    (m.emplace k x).entries = m.entries ++ [(k, x)] := by
  have hnone : m.contains k = false := by
    rw [contains, (find?_eq_none_iff m k).mpr fun e he => (h e he).ne]
    rfl
  rw [emplace, hnone]
  exact insertEntry_append x h

/-- Assigning the entries of a sorted list, one after the other, to an empty map. -/
def ofEntries (rank : κ → ω) (l : List (κ × α)) : OrdMap rank α :=
  l.foldl (fun m e => m.insert e.1 e.2) .empty

theorem foldl_insert_entries {l : List (κ × α)} (m : OrdMap rank α)
    (h : (m.entries ++ l).Pairwise fun a b => rank a.1 < rank b.1) :
    (l.foldl (fun m e => m.insert e.1 e.2) m).entries = m.entries ++ l := by
  induction l generalizing m with
  | nil => simp
  | cons e l ih =>
    have hentries : (m.insert e.1 e.2).entries = m.entries ++ [e] := by
      apply insertEntry_append
      exact fun a ha => (List.pairwise_append.mp h).2.2 a ha e List.mem_cons_self
    rw [List.foldl_cons, ih (m.insert e.1 e.2), hentries]
    · simp
    · rw [hentries, List.append_assoc]
      exact h

theorem ofEntries_entries {l : List (κ × α)} (h : l.Pairwise fun a b => rank a.1 < rank b.1) :
    (ofEntries rank l).entries = l :=
  foldl_insert_entries .empty h

theorem foldl_emplace_entries {l : List (κ × α)} (m : OrdMap rank α)
    (h : (m.entries ++ l).Pairwise fun a b => rank a.1 < rank b.1) :
    (l.foldl (fun m e => m.emplace e.1 e.2) m).entries = m.entries ++ l := by
  induction l generalizing m with
  | nil => simp
  | cons e l ih =>
    have hentries : (m.emplace e.1 e.2).entries = m.entries ++ [e] := by
      apply emplace_entries
      exact fun a ha => (List.pairwise_append.mp h).2.2 a ha e List.mem_cons_self
    rw [List.foldl_cons, ih (m.emplace e.1 e.2), hentries]
    · simp
    · rw [hentries, List.append_assoc]
      exact h

/-- Assigning the value that is there already changes nothing. -/
theorem insert_eq_self {m : OrdMap rank α} {k : κ} {x : α} (h : m.find? k = some x) :
    m.insert k x = m := by
  obtain ⟨l, hl⟩ := m
  apply OrdMap.ext
  simp only [find?, insert] at *
  induction l with
  | nil => simp at h
  | cons a l ih =>
    obtain ⟨ha, hl⟩ := List.pairwise_cons.mp hl
    simp only [insertEntry]
    split_ifs with h₁ h₂
    · rw [find?_cons_eq_none ha h₁] at h
      cases h
    · rw [ih hl (by simpa [h₂.ne] using h)]
    · have hr : rank a.1 = rank k := le_antisymm (not_lt.mp h₁) (not_lt.mp h₂)
      have hx : a.2 = x := by simpa [hr] using h
      rw [← hx]

theorem mem_insertEntry {k : κ} {x : α} {e : κ × α} {l : List (κ × α)}
    (h : e ∈ insertEntry rank k x l) : rank e.1 = rank k ∧ e.2 = x ∨ e ∈ l := by
  induction l with
  | nil =>
    rw [List.mem_singleton.mp h]
    exact .inl ⟨rfl, rfl⟩
  | cons a l ih =>
    simp only [insertEntry] at h
    split_ifs at h with h₁ h₂
    · rcases List.mem_cons.mp h with rfl | h
      · exact .inl ⟨rfl, rfl⟩
      · exact .inr h
    · rcases List.mem_cons.mp h with rfl | h
      · exact .inr List.mem_cons_self
      · exact (ih h).imp_right (List.mem_cons_of_mem _)
    · rcases List.mem_cons.mp h with rfl | h
      · exact .inl ⟨le_antisymm (not_lt.mp h₁) (not_lt.mp h₂), rfl⟩
      · exact .inr (List.mem_cons_of_mem _ h)

theorem exists_mem_insertEntry (k : κ) (x : α) (l : List (κ × α)) :
    ∃ k', rank k' = rank k ∧ (k', x) ∈ insertEntry rank k x l := by
  induction l with
  | nil => exact ⟨k, rfl, List.mem_cons_self⟩
  | cons a l ih =>
    simp only [insertEntry]
    split_ifs with h₁ h₂
    · exact ⟨k, rfl, List.mem_cons_self⟩
    · obtain ⟨k', hrank, hk'⟩ := ih
      exact ⟨k', hrank, List.mem_cons_of_mem _ hk'⟩
    · exact ⟨a.1, le_antisymm (not_lt.mp h₁) (not_lt.mp h₂), List.mem_cons_self⟩

theorem mem_insertEntry_of_ne {k : κ} (x : α) {e : κ × α} {l : List (κ × α)} (h : e ∈ l)
    (hne : rank e.1 ≠ rank k) : e ∈ insertEntry rank k x l := by
  induction l with
  | nil => cases h
  | cons a l ih =>
    simp only [insertEntry]
    split_ifs with h₁ h₂
    · exact List.mem_cons_of_mem _ h
    · rcases List.mem_cons.mp h with rfl | h
      · exact List.mem_cons_self
      · exact List.mem_cons_of_mem _ (ih h)
    · rcases List.mem_cons.mp h with rfl | h
      · exact absurd (le_antisymm (not_lt.mp h₁) (not_lt.mp h₂)) hne
      · exact List.mem_cons_of_mem _ h

theorem insertEntry_map {β : Type w} (f : α → β) (k : κ) (x : α) (l : List (κ × α)) :
    (insertEntry rank k x l).map (fun e => (e.1, f e.2)) =
      insertEntry rank k (f x) (l.map fun e => (e.1, f e.2)) := by
  induction l with
  | nil => rfl
  | cons a l ih =>
    simp only [insertEntry, List.map_cons]
    split_ifs
    · rfl
    · rw [List.map_cons, ih]
    · rfl

theorem mem_entries_iff (hrank : Function.Injective rank) (m : OrdMap rank α) (e : κ × α) :
    e ∈ m.entries ↔ m.find? e.1 = some e.2 := by
  constructor
  · exact find?_eq_some_of_mem m
  · intro h
    obtain ⟨a, ha, hx⟩ := Option.map_eq_some_iff.mp h
    have hfound := List.find?_some ha
    have hkey : a.1 = e.1 := hrank (of_decide_eq_true hfound)
    have he : a = e := Prod.ext hkey hx
    exact he ▸ List.mem_of_find?_eq_some ha

theorem ext_find? (hrank : Function.Injective rank) {m m' : OrdMap rank α}
    (h : ∀ k, m.find? k = m'.find? k) : m = m' := by
  have hnodup (m : OrdMap rank α) : m.entries.Nodup :=
    m.sorted.imp fun hlt heq => hlt.ne (congrArg (fun e => rank e.1) heq)
  have hperm : m.entries.Perm m'.entries := by
    rw [List.perm_ext_iff_of_nodup (hnodup m) (hnodup m')]
    intro e
    rw [mem_entries_iff hrank, mem_entries_iff hrank, h]
  apply OrdMap.ext
  exact hperm.eq_of_pairwise (fun a b _ _ hab hba => absurd hab hba.not_gt) m.sorted m'.sorted

end OrdMap
end Foundation
