import Mathlib.Tactic

/-!
# Bit strings and binary code trees

`bitsOfByte` and `byteOfBits` pass between octets and their eight bits, most
significant bit first. `CodeTree` is a binary tree whose nodes may carry a
symbol: `insert` adds a code word, `decodeBits` reads symbols off a bit string,
returning to the root whenever a node with a symbol is reached. A code word
`w` is `Legible` for `a` when the walk along `w` meets its first symbol at the
end of `w`, and that symbol is `a`. Trees built from a table that is not prefix
free are allowed: their symbols are then just not all legible. What is read is
known exactly: legible words, and a rest that is `Underway` to a symbol.
-/
namespace Foundation

/-- The number denoted by a bit string, most significant bit first. -/
def valueOfBits (bits : List Bool) : ℕ := bits.foldl (fun n b => 2 * n + b.toNat) 0

def byteOfBits (bits : List Bool) : UInt8 := UInt8.ofNat (valueOfBits bits)

def bitsOfByte (b : UInt8) : List Bool :=
  [7, 6, 5, 4, 3, 2, 1, 0].map fun j => b.toNat.testBit j

@[simp] theorem valueOfBits_nil : valueOfBits [] = 0 := rfl

@[simp] theorem valueOfBits_concat (bits : List Bool) (b : Bool) :
    valueOfBits (bits ++ [b]) = 2 * valueOfBits bits + b.toNat := by
  simp [valueOfBits]

theorem valueOfBits_lt (bits : List Bool) : valueOfBits bits < 2 ^ bits.length := by
  induction bits using List.reverseRecOn with
  | nil => simp
  | append_singleton bits b ih =>
    rw [valueOfBits_concat, List.length_append, List.length_singleton, pow_succ]
    have : b.toNat ≤ 1 := by cases b <;> simp
    omega

theorem exists_eight_bits {bits : List Bool} (h : bits.length = 8) :
    ∃ a b c d e f g i, bits = [a, b, c, d, e, f, g, i] := by
  match bits, h with
  | [a, b, c, d, e, f, g, i], _ => exact ⟨a, b, c, d, e, f, g, i, rfl⟩

theorem bitsOfByte_byteOfBits {bits : List Bool} (h : bits.length = 8) :
    bitsOfByte (byteOfBits bits) = bits := by
  obtain ⟨a, b, c, d, e, f, g, i, rfl⟩ := exists_eight_bits h
  revert a b c d e f g i
  decide

inductive CodeTree (α : Type*)
  | null
  | node (symbol : Option α) (left right : CodeTree α)

namespace CodeTree

variable {α : Type*}

def fresh : CodeTree α := .node none .null .null

/-- Add a code word, creating the nodes on its path that are missing. -/
def insert (a : α) : List Bool → CodeTree α → CodeTree α
  | [], .null => .node (some a) .null .null
  | [], .node _ l r => .node (some a) l r
  | true :: w, .null => .node none .null (insert a w .null)
  | true :: w, .node s l r => .node s l (insert a w r)
  | false :: w, .null => .node none (insert a w .null) .null
  | false :: w, .node s l r => .node s (insert a w l) r

def child : CodeTree α → Bool → CodeTree α
  | .null, _ => .null
  | .node _ _ r, true => r
  | .node _ l _, false => l

/-- Read symbols off a bit string, `current` being the node reached so far. Bits
left over after the last symbol are dropped; a missing branch is an error. -/
def decodeBits (root : CodeTree α) : CodeTree α → List Bool → Option (List α)
  | _, [] => some []
  | current, b :: bits =>
    match current.child b with
    | .null => none
    | .node (some a) _ _ => (decodeBits root root bits).map (a :: ·)
    | .node none l r => decodeBits root (.node none l r) bits

/-- The walk along `w` meets no symbol before its end and `a` at its end. -/
def Legible [DecidableEq α] (a : α) : CodeTree α → List Bool → Bool
  | _, [] => false
  | t, b :: w =>
    match t.child b with
    | .null => false
    | .node (some a') _ _ => decide (a' = a) && w.isEmpty
    | .node none l r => Legible a (.node none l r) w

section Legible

variable [DecidableEq α]

theorem decodeBits_legible (root : CodeTree α) {a : α} {current : CodeTree α} {w : List Bool}
    (h : Legible a current w) (rest : List Bool) :
    decodeBits root current (w ++ rest) = (decodeBits root root rest).map (a :: ·) := by
  induction w generalizing current with
  | nil => simp [Legible] at h
  | cons b w ih =>
    simp only [Legible] at h
    simp only [List.cons_append, decodeBits]
    split at h
    · simp at h
    · simp only [Bool.and_eq_true, decide_eq_true_eq, List.isEmpty_iff] at h
      obtain ⟨rfl, rfl⟩ := h
      simp
    · exact ih h

/-- A sequence of legible code words is read back symbol by symbol. -/
theorem decodeBits_flatMap (root : CodeTree α) (code : α → List Bool) (s : List α)
    (h : ∀ a ∈ s, Legible a root (code a)) (rest : List Bool) :
    decodeBits root root (s.flatMap code ++ rest) = (decodeBits root root rest).map (s ++ ·) := by
  induction s with
  | nil => simp
  | cons a s ih =>
    rw [List.flatMap_cons, List.append_assoc, decodeBits_legible root (h a List.mem_cons_self),
      ih fun b hb => h b (List.mem_cons_of_mem _ hb), Option.map_map]
    rfl

end Legible

/-- The walk along the bits stays in the tree and meets no symbol. -/
def Underway : CodeTree α → List Bool → Bool
  | _, [] => true
  | t, b :: w =>
    match t.child b with
    | .null => false
    | .node (some _) _ _ => false
    | .node none l r => Underway (.node none l r) w

theorem decodeBits_underway (root : CodeTree α) {current : CodeTree α} {rest : List Bool}
    (h : Underway current rest) : decodeBits root current rest = some [] := by
  induction rest generalizing current with
  | nil => simp [decodeBits]
  | cons b rest ih =>
    simp only [Underway] at h
    simp only [decodeBits]
    split at h
    · simp at h
    · simp at h
    · exact ih h

section Reading

variable [DecidableEq α]

/-- The bits stop on the way to a symbol, or they begin with a word that leads to one. -/
theorem decodeBits_cases {root current : CodeTree α} {bits : List Bool} {s : List α}
    (h : decodeBits root current bits = some s) :
    s = [] ∧ Underway current bits ∨ ∃ a w bits' s', bits = w ++ bits' ∧ s = a :: s' ∧
      Legible a current w ∧ decodeBits root root bits' = some s' := by
  induction bits generalizing current with
  | nil => exact .inl ⟨by simpa [decodeBits] using h.symm, by simp [Underway]⟩
  | cons b bits ih =>
    simp only [decodeBits] at h
    split at h
    · simp at h
    · rename_i a l r hchild
      obtain ⟨s', hs', rfl⟩ := Option.map_eq_some_iff.mp h
      exact .inr ⟨a, [b], bits, s', by simp, rfl, by simp [Legible, hchild], hs'⟩
    · rename_i l r hchild
      rcases ih h with ⟨rfl, hrest⟩ | ⟨a, w, bits', s', rfl, rfl, hw, hs'⟩
      · exact .inl ⟨rfl, by simpa [Underway, hchild] using hrest⟩
      · exact .inr ⟨a, b :: w, bits', s', by simp, rfl, by simpa [Legible, hchild] using hw, hs'⟩

/-- Where every symbol has one word, `code`, what is read are words of the code and a rest that
comes to no symbol. -/
theorem decodeBits_eq_some_iff {root : CodeTree α} {code : α → List Bool}
    (hcode : ∀ a w, Legible a root w → w = code a) {bits : List Bool} {s : List α} :
    decodeBits root root bits = some s ↔ ∃ rest, bits = s.flatMap code ++ rest ∧
      (∀ a ∈ s, Legible a root (code a)) ∧ Underway root rest := by
  constructor
  · intro h
    induction s generalizing bits with
    | nil =>
      rcases decodeBits_cases h with ⟨-, hrest⟩ | ⟨_, _, _, _, _, hcons, _⟩
      · exact ⟨bits, by simp, by simp, hrest⟩
      · cases hcons
    | cons a s ih =>
      rcases decodeBits_cases h with ⟨hnil, -⟩ | ⟨a', w, bits', s', rfl, hcons, hw, hs'⟩
      · cases hnil
      · cases hcons
        obtain ⟨rest, rfl, hlegible, hrest⟩ := ih hs'
        have hword := hcode a w hw
        subst hword
        exact ⟨rest, by simp, by simpa using ⟨hw, hlegible⟩, hrest⟩
  · rintro ⟨rest, rfl, hlegible, hrest⟩
    simp [decodeBits_flatMap root code s hlegible, decodeBits_underway root hrest]

end Reading

def walk (t : CodeTree α) (w : List Bool) : CodeTree α := w.foldl child t

def symbol : CodeTree α → Option α
  | .null => none
  | .node s _ _ => s

@[simp] theorem walk_nil (t : CodeTree α) : t.walk [] = t := by simp [walk]

@[simp] theorem walk_cons (t : CodeTree α) (b : Bool) (w : List Bool) :
    t.walk (b :: w) = (t.child b).walk w := by
  simp [walk]

@[simp] theorem walk_null (w : List Bool) : (null : CodeTree α).walk w = null := by
  induction w with
  | nil => simp
  | cons b w ih => simpa [child] using ih

theorem child_insert_self (a : α) (b : Bool) (w : List Bool) (t : CodeTree α) :
    (t.insert a (b :: w)).child b = (t.child b).insert a w := by
  cases t <;> cases b <;> rfl

theorem child_insert_of_ne (a : α) {b b' : Bool} (h : b' ≠ b) (w : List Bool) (t : CodeTree α) :
    (t.insert a (b :: w)).child b' = t.child b' := by
  cases t <;> cases b <;> cases b' <;> first | exact absurd rfl h | rfl

theorem insert_ne_null (a : α) (w : List Bool) (t : CodeTree α) : t.insert a w ≠ null := by
  cases t <;> cases w
  case null.cons b w => cases b <;> simp [insert]
  case node.cons b w => cases b <;> simp [insert]
  all_goals simp [insert]

theorem walk_insert_eq_null_iff (a : α) (w v : List Bool) (t : CodeTree α) :
    (t.insert a w).walk v = null ↔ t.walk v = null ∧ ¬v <+: w := by
  induction v generalizing w t with
  | nil => simp [insert_ne_null]
  | cons b v ih =>
    cases w with
    | nil => cases t <;> cases b <;> simp [insert, child]
    | cons b' w =>
      by_cases h : b = b'
      · subst h
        simp [child_insert_self, ih, List.cons_prefix_cons]
      · simp [child_insert_of_ne a h, List.cons_prefix_cons, h]

theorem symbol_walk_insert (a : α) (w v : List Bool) (t : CodeTree α) :
    ((t.insert a w).walk v).symbol = if v = w then some a else (t.walk v).symbol := by
  induction v generalizing w t with
  | nil =>
    cases w with
    | nil => cases t <;> simp [insert, symbol]
    | cons b w => cases t <;> cases b <;> simp [insert, symbol]
  | cons b v ih =>
    cases w with
    | nil => cases t <;> cases b <;> simp [insert, child]
    | cons b' w =>
      by_cases h : b = b'
      · subst h
        simp [child_insert_self, ih]
      · simp [child_insert_of_ne a h, h]

theorem underway_iff {t : CodeTree α} {w : List Bool} :
    Underway t w ↔ ∀ v, v <+: w → v ≠ [] → t.walk v ≠ null ∧ (t.walk v).symbol = none := by
  induction w generalizing t with
  | nil => simp [Underway]
  | cons b w ih =>
    have hcons : ∀ P : List Bool → Prop, (∀ v, v <+: b :: w → v ≠ [] → P v) ↔
        ∀ v, v <+: w → P (b :: v) := by
      intro P
      constructor
      · intro h v hv
        exact h _ (List.cons_prefix_cons.mpr ⟨rfl, hv⟩) (List.cons_ne_nil b v)
      · intro h v hv hne
        cases v with
        | nil => exact absurd rfl hne
        | cons b' v =>
          obtain ⟨rfl, htail⟩ := List.cons_prefix_cons.mp hv
          exact h v htail
    rw [hcons]
    simp only [walk_cons, Underway]
    cases hchild : t.child b with
    | null => simpa using ⟨[], List.nil_prefix⟩
    | node s l r =>
      cases s with
      | some a =>
        have hnot : ¬∀ v, v <+: w → (node (some a) l r).walk v ≠ null ∧
            ((node (some a) l r).walk v).symbol = none := by
          intro h
          simpa [symbol] using (h [] List.nil_prefix).2
        simp [hnot]
      | none =>
        rw [ih]
        constructor
        · intro h v hv
          by_cases hne : v = []
          · simp [hne, symbol]
          · exact h v hv hne
        · intro h v hv _
          exact h v hv

def ofEntries (entries : List (List Bool × α)) : CodeTree α :=
  entries.foldl (fun t e => t.insert e.2 e.1) fresh

theorem walk_fresh (w : List Bool) : (fresh : CodeTree α).walk w = null ↔ w ≠ [] := by
  cases w with
  | nil => simp [fresh]
  | cons b w => cases b <;> simp [fresh, child]

theorem symbol_walk_fresh (w : List Bool) : ((fresh : CodeTree α).walk w).symbol = none := by
  cases w with
  | nil => simp [fresh, symbol]
  | cons b w => simp [(walk_fresh (b :: w)).mpr (List.cons_ne_nil b w), symbol]

variable {entries : List (List Bool × α)} {w : List Bool}

theorem walk_ofEntries_eq_null_iff :
    (ofEntries entries).walk w = null ↔ w ≠ [] ∧ ∀ e ∈ entries, ¬w <+: e.1 := by
  induction entries using List.reverseRecOn with
  | nil => simp [ofEntries, walk_fresh]
  | append_singleton entries e ih =>
    simp only [ofEntries, List.foldl_append, List.foldl_cons, List.foldl_nil] at ih ⊢
    rw [walk_insert_eq_null_iff, ih]
    simp [or_imp, forall_and, and_assoc]

theorem mem_of_symbol_walk {a : α} (h : ((ofEntries entries).walk w).symbol = some a) :
    (w, a) ∈ entries := by
  induction entries using List.reverseRecOn with
  | nil => simp [ofEntries, symbol_walk_fresh] at h
  | append_singleton entries e ih =>
    simp only [ofEntries, List.foldl_append, List.foldl_cons, List.foldl_nil] at ih h
    rw [symbol_walk_insert] at h
    split_ifs at h with heq
    · cases h
      simp [heq]
    · simp [ih h]

theorem symbol_walk_ofEntries_eq_none_iff :
    ((ofEntries entries).walk w).symbol = none ↔ ∀ e ∈ entries, e.1 ≠ w := by
  induction entries using List.reverseRecOn with
  | nil => simp [ofEntries, symbol_walk_fresh]
  | append_singleton entries e ih =>
    simp only [ofEntries, List.foldl_append, List.foldl_cons, List.foldl_nil] at ih ⊢
    rw [symbol_walk_insert]
    split_ifs with heq
    · simpa [heq] using ⟨e.2, .inr rfl⟩
    · simp [ih, or_imp, forall_and, Ne.symm heq]

/-- A rest that comes to no symbol begins a word, and no word begins it. -/
theorem underway_ofEntries_iff (hne : ∀ e ∈ entries, e.1 ≠ []) :
    Underway (ofEntries entries) w ↔
      (w = [] ∨ ∃ e ∈ entries, w <+: e.1) ∧ ∀ e ∈ entries, ¬e.1 <+: w := by
  rw [underway_iff]
  constructor
  · intro h
    constructor
    · by_cases hw : w = []
      · exact .inl hw
      · have hreached := (h w List.prefix_rfl hw).1
        rw [ne_eq, walk_ofEntries_eq_null_iff] at hreached
        push Not at hreached
        exact .inr (hreached hw)
    · intro e he hprefix
      exact symbol_walk_ofEntries_eq_none_iff.mp (h e.1 hprefix (hne e he)).2 e he rfl
  · rintro ⟨hbegins, hshort⟩ v hv hvne
    constructor
    · rw [ne_eq, walk_ofEntries_eq_null_iff]
      push Not
      intro _
      rcases hbegins with rfl | ⟨e, he, hw⟩
      · exact absurd (List.prefix_nil.mp hv) hvne
      · exact ⟨e, he, hv.trans hw⟩
    · rw [symbol_walk_ofEntries_eq_none_iff]
      rintro e he rfl
      exact hshort e he hv

theorem mem_of_legible [DecidableEq α] {a : α} (h : Legible a (ofEntries entries) w) :
    (w, a) ∈ entries := by
  have hwalk : ∀ t : CodeTree α, Legible a t w → (t.walk w).symbol = some a := by
    clear h
    induction w with
    | nil => simp [Legible]
    | cons b w ih =>
      intro t h
      simp only [Legible] at h
      split at h
      · simp at h
      · rename_i a' l r hchild
        obtain ⟨rfl, rfl⟩ : a' = a ∧ w = [] := by simpa using h
        simp [hchild, symbol]
      · rename_i l r hchild
        simpa [hchild] using ih _ h
  exact mem_of_symbol_walk (hwalk _ h)

end CodeTree
end Foundation
