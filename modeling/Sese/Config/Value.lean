import Sese.Net.Http.Header
import Sese.Util.Scan

/-!
# Values

`sese::Value`. A dictionary is a `std::map`: its entries are kept in the order of their keys
(`Sorted`). The type of the floating point numbers is a parameter, with the conversions of the
standard library that the parsers and writers call.
-/
namespace Sese

open Foundation
open Net.Http (byteOrder)

/-- The type `double` and its conversions from and to text. -/
class Double (δ : Type) where
  /-- `std::stod`; what it throws is a fault. -/
  stod : Bytes → Except Fault δ
  /-- `std::to_string`. -/
  to_string : δ → Bytes

/-- No floating point numbers at all. -/
instance : Double Empty where
  stod _ := .error .terminate
  to_string := Empty.elim

inductive Value (δ : Type) where
  | null
  | bool (b : Bool)
  | int (i : ℤ)
  | double (d : δ)
  | string (s : Bytes)
  | blob (bytes : Bytes)
  | list (values : List (Value δ))
  | dict (members : List (Bytes × Value δ))

namespace Value

variable {δ : Type}

def isContainer : Value δ → Bool
  | .list _ => true
  | .dict _ => true
  | _ => false

def find (members : List (Bytes × Value δ)) (key : Bytes) : Option (Value δ) :=
  (members.find? fun e => e.1 = key).map Prod.snd

/-- `Value::Dict::set`: the value of a key that is there is replaced. -/
def set (members : List (Bytes × Value δ)) (key : Bytes) (value : Value δ) : List (Bytes × Value δ) :=
  OrdMap.insertEntry byteOrder key value members

/-- The value that `Value::Dict::setRef` leads to: it emplaces, so that a key that is there keeps
its value. -/
def setRef (members : List (Bytes × Value δ)) (key : Bytes) (value : Value δ) : Value δ :=
  (find members key).getD value

theorem byteOrder_injective : Function.Injective byteOrder :=
  List.map_injective_iff.mpr fun _ _ h => UInt8.toNat_inj.mp h

theorem mem_set {members : List (Bytes × Value δ)} {key : Bytes} {value : Value δ}
    {e : Bytes × Value δ} (h : e ∈ set members key value) : e.1 = key ∨ e ∈ members :=
  (OrdMap.rank_mem_insertEntry h).imp_left fun hrank => byteOrder_injective hrank

theorem setRef_new {members : List (Bytes × Value δ)} {key : Bytes} (h : ∀ e ∈ members, e.1 ≠ key)
    (value : Value δ) : setRef members key value = value := by
  have hnone : (members.find? fun e => e.1 = key) = none := by
    rw [List.find?_eq_none]
    intro e he
    simpa using h e he
  rw [setRef, find, hnone]
  rfl

theorem find_set_self (members : List (Bytes × Value δ)) (key : Bytes) (value : Value δ) :
    find (set members key value) key = some value := by
  induction members with
  | nil => simp [find, set, OrdMap.insertEntry]
  | cons e members ih =>
    rw [set, OrdMap.insertEntry]
    split_ifs with h₁ h₂
    · simp [find]
    · have hne : e.1 ≠ key := by
        rintro rfl
        exact h₂.false
      rw [find, List.find?_cons_of_neg (by simpa using hne)]
      exact ih
    · have hkey : e.1 = key := byteOrder_injective (le_antisymm (not_lt.mp h₁) (not_lt.mp h₂))
      simp [find, hkey]

theorem find_set_of_ne (members : List (Bytes × Value δ)) {key key' : Bytes} (value : Value δ)
    (h : key' ≠ key) : find (set members key value) key' = find members key' := by
  induction members with
  | nil => simp [find, set, OrdMap.insertEntry, h.symm]
  | cons e members ih =>
    rw [set, OrdMap.insertEntry]
    split_ifs with h₁ h₂
    · simp [find, h.symm]
    · by_cases he : e.1 = key'
      · simp [find, he]
      · rw [find, find, List.find?_cons_of_neg (by simpa using he),
          List.find?_cons_of_neg (by simpa using he)]
        exact ih
    · have hkey : e.1 = key := byteOrder_injective (le_antisymm (not_lt.mp h₁) (not_lt.mp h₂))
      simp [find, hkey, h.symm]

/-- The keys of a `std::map` in their order. -/
def Sorted (members : List (Bytes × Value δ)) : Prop :=
  members.Pairwise fun a b => byteOrder a.1 < byteOrder b.1

theorem Sorted.set {members : List (Bytes × Value δ)} (h : Sorted members) (key : Bytes)
    (value : Value δ) : Sorted (set members key value) := OrdMap.insertEntry_sorted key value h

theorem Sorted.ext {members members' : List (Bytes × Value δ)} (h : Sorted members)
    (h' : Sorted members') (hfind : ∀ key, find members key = find members' key) :
    members = members' := by
  have hlookup (l : List (Bytes × Value δ)) (hl : Sorted l) (key : Bytes) :
      (⟨l, hl⟩ : OrdMap byteOrder (Value δ)).find? key = find l key := by
    simp only [OrdMap.find?, find, byteOrder_injective.eq_iff]
  have hmap : (⟨members, h⟩ : OrdMap byteOrder (Value δ)) = ⟨members', h'⟩ := by
    apply OrdMap.ext_find? byteOrder_injective
    intro key
    rw [hlookup, hlookup, hfind]
  exact congrArg OrdMap.entries hmap

/-- `toStringBasic`, which is empty for lists and dictionaries. -/
def toStringBasic [Double δ] : Value δ → Bytes
  | .null => bytes "null"
  | .bool b => if b then bytes "true" else bytes "false"
  | .int i => signedDecimal i
  | .double d => Double.to_string d
  | .string s => 34 :: (s ++ [34])
  | .blob _ => bytes "\"<BLOB>\""
  | .list _ => []
  | .dict _ => []

/-- The first is the second or a value in it, at any depth. -/
inductive Inside : Value δ → Value δ → Prop
  | self (v : Value δ) : Inside v v
  | element {w v : Value δ} {values : List (Value δ)} : v ∈ values → Inside w v →
    Inside w (.list values)
  | member {w : Value δ} {e : Bytes × Value δ} {members : List (Bytes × Value δ)} : e ∈ members →
    Inside w e.2 → Inside w (.dict members)

/-- The property holds of the value and of every value in it. -/
def All (P : Value δ → Prop) (v : Value δ) : Prop := ∀ w, Inside w v → P w

theorem All.self {P : Value δ → Prop} {v : Value δ} (h : v.All P) : P v := h v (.self v)

theorem All.element {P : Value δ → Prop} {values : List (Value δ)} (h : (Value.list values).All P)
    {v : Value δ} (hv : v ∈ values) : v.All P := fun w hw => h w (.element hv hw)

theorem All.member {P : Value δ → Prop} {members : List (Bytes × Value δ)}
    (h : (Value.dict members).All P) {e : Bytes × Value δ} (he : e ∈ members) : e.2.All P :=
  fun w hw => h w (.member he hw)

theorem all_word {P : Value δ → Prop} {v : Value δ} (hword : v.isContainer = false) (h : P v) :
    v.All P := by
  intro w hw
  cases hw with
  | self => exact h
  | element _ _ => cases hword
  | member _ _ => cases hword

theorem all_list {P : Value δ → Prop} {values : List (Value δ)} (h : P (.list values))
    (hvalues : ∀ v ∈ values, v.All P) : (Value.list values).All P := by
  intro w hw
  cases hw with
  | self => exact h
  | element hv hw => exact hvalues _ hv w hw

theorem all_dict {P : Value δ → Prop} {members : List (Bytes × Value δ)} (h : P (.dict members))
    (hmembers : ∀ e ∈ members, e.2.All P) : (Value.dict members).All P := by
  intro w hw
  cases hw with
  | self => exact h
  | member he hw => exact hmembers _ he w hw

theorem tree_induction {P : Value δ → Prop} (null : P .null) (bool : ∀ b, P (.bool b))
    (int : ∀ i, P (.int i)) (double : ∀ d, P (.double d)) (string : ∀ s, P (.string s))
    (blob : ∀ s, P (.blob s)) (list : ∀ values, (∀ v ∈ values, P v) → P (.list values))
    (dict : ∀ members, (∀ e ∈ members, P e.2) → P (.dict members)) (v : Value δ) : P v :=
  match v with
  | .null => null
  | .bool b => bool b
  | .int i => int i
  | .double d => double d
  | .string s => string s
  | .blob s => blob s
  | .list values => list values fun v hv =>
    have : sizeOf v < sizeOf (Value.list values) := by
      have hlt := List.sizeOf_lt_of_mem hv
      simp only [Value.list.sizeOf_spec]
      omega
    tree_induction null bool int double string blob list dict v
  | .dict members => dict members fun e he =>
    have : sizeOf e.2 < sizeOf (Value.dict members) := by
      have hlt := List.sizeOf_lt_of_mem he
      obtain ⟨key, value⟩ := e
      simp only [Prod.mk.sizeOf_spec, Value.dict.sizeOf_spec] at hlt ⊢
      omega
    tree_induction null bool int double string blob list dict e.2
termination_by sizeOf v
decreasing_by all_goals assumption

end Value
end Sese
