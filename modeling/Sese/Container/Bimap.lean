import Sese.Foundation.Mirror
import Sese.Foundation.OrdMap
import Sese.Foundation.Runs
import Sese.Util.Bytes

/-!
# Bidirectional maps

`sese::Bimap`, two maps that are updated by separate statements, and the sequences of its
operations.
-/
namespace Sese.Container

open Foundation

universe u v
variable {K : Type u} {V : Type v} [LinearOrder K] [LinearOrder V]

/-- `std::map<K, V>`. -/
abbrev StdMap (K : Type u) (V : Type v) [LinearOrder K] := OrdMap (id : K → K) V

@[ext] structure Bimap (K : Type u) (V : Type v) [LinearOrder K] [LinearOrder V] where
  first : StdMap K V := .empty
  second : StdMap V K := .empty

namespace Bimap

def insert (m : Bimap K V) (key : K) (value : V) : Bimap K V :=
  ⟨m.first.insert key value, m.second.insert value key⟩

section
variable [Inhabited K] [Inhabited V]

/-- `first[key]` puts the default value at a key that is not there. -/
def eraseByKey (m : Bimap K V) (key : K) : Bimap K V :=
  let first := m.first.emplace key default
  let value := (first.find? key).getD default
  ⟨first.erase key, m.second.erase value⟩

def eraseByValue (m : Bimap K V) (value : V) : Bimap K V :=
  let second := m.second.emplace value default
  let key := (second.find? value).getD default
  ⟨m.first.erase key, second.erase value⟩

def tryEraseByKey (m : Bimap K V) (key : K) : Bool × Bimap K V :=
  if m.first.contains key then (true, m.eraseByKey key) else (false, m)

def tryEraseByValue (m : Bimap K V) (value : V) : Bool × Bimap K V :=
  if m.second.contains value then (true, m.eraseByValue value) else (false, m)

end

def existByKey (m : Bimap K V) (key : K) : Bool := m.first.contains key

def existByValue (m : Bimap K V) (value : V) : Bool := m.second.contains value

/-- `getByKey`, nothing where it throws `std::out_of_range`. -/
def getByKey (m : Bimap K V) (key : K) : Option V := m.first.find? key

def getByValue (m : Bimap K V) (value : V) : Option K := m.second.find? value

def clear (_ : Bimap K V) : Bimap K V := {}

inductive Operation (K : Type u) (V : Type v)
  | insert (key : K) (value : V)
  | eraseByKey (key : K)
  | eraseByValue (value : V)
  | tryEraseByKey (key : K)
  | tryEraseByValue (value : V)
  | existByKey (key : K)
  | existByValue (value : V)
  | getByKey (key : K)
  | getByValue (value : V)
  | clear

/-- What an operation returns. -/
inductive Result (K : Type u) (V : Type v)
  | nothing
  | flag (b : Bool)
  | key (found : Option K)
  | value (found : Option V)

variable [Inhabited K] [Inhabited V]

def perform (m : Bimap K V) : Operation K V → Result K V × Bimap K V
  | .insert key value => (.nothing, m.insert key value)
  | .eraseByKey key => (.nothing, m.eraseByKey key)
  | .eraseByValue value => (.nothing, m.eraseByValue value)
  | .tryEraseByKey key => ((m.tryEraseByKey key).map .flag id)
  | .tryEraseByValue value => ((m.tryEraseByValue value).map .flag id)
  | .existByKey key => (.flag (m.existByKey key), m)
  | .existByValue value => (.flag (m.existByValue value), m)
  | .getByKey key => (.value (m.getByKey key), m)
  | .getByValue value => (.key (m.getByValue value), m)
  | .clear => (.nothing, m.clear)

def step (m : Bimap K V) (op : Operation K V) : Except Fault (Bimap K V) := .ok (m.perform op).2

/-- `(a, b)` is in one map if and only if `(b, a)` is in the other one. -/
def Inverse (m : Bimap K V) : Prop := Mirrored m.first.find? m.second.find?

/-- A pair is inserted whose components have no other partners; what is erased without a test
is there, or the default that stands for its partner has none. -/
def Consistent (m : Bimap K V) : Operation K V → Prop
  | .insert key value => (∀ v, m.first.find? key = some v → v = value) ∧
      ∀ k, m.second.find? value = some k → k = key
  | .eraseByKey key => m.first.find? key = none → m.second.find? default = none
  | .eraseByValue value => m.second.find? value = none → m.first.find? default = none
  | _ => True

end Bimap

namespace StdMap

variable {A : Type u} {B : Type v} [LinearOrder A] (m : StdMap A B) (a : A) (b : B)

theorem find?_insert : (OrdMap.insert m a b).find? = Function.update m.find? a (some b) := by
  funext j
  by_cases h : j = a
  · subst h
    rw [Function.update_self, OrdMap.find?_insert_self]
  · rw [Function.update_of_ne h, OrdMap.find?_insert_of_ne m b h]

theorem find?_erase : (OrdMap.erase m a).find? = Function.update m.find? a none := by
  funext j
  by_cases h : j = a
  · subst h
    rw [Function.update_self, OrdMap.find?_erase_self]
  · rw [Function.update_of_ne h, OrdMap.find?_erase_of_ne m h]

theorem find?_erase_emplace :
    ((OrdMap.emplace m a b).erase a).find? = Function.update m.find? a none := by
  rw [find?_erase, OrdMap.emplace]
  split_ifs
  · rfl
  · rw [find?_insert, Function.update_idem]

theorem getD_emplace [Inhabited B] :
    ((OrdMap.emplace m a default).find? a).getD default = (m.find? a).getD default := by
  rw [OrdMap.emplace]
  split_ifs with h
  · rfl
  · have hnone : m.find? a = none := by simpa [OrdMap.contains] using h
    rw [OrdMap.find?_insert_self, hnone]
    rfl

end StdMap

namespace Bimap

variable {m : Bimap K V}

theorem inverse_insert_iff (h : m.Inverse) (key : K) (value : V) :
    (m.insert key value).Inverse ↔ (∀ v, m.first.find? key = some v → v = value) ∧
      ∀ k, m.second.find? value = some k → k = key := by
  rw [Inverse, insert, StdMap.find?_insert, StdMap.find?_insert]
  exact Mirrored.set_iff h key value

theorem unset_default_iff {A : Type u} {B : Type v} [DecidableEq A] [DecidableEq B] [Inhabited B]
    {f : A → Option B} {g : B → Option A} (h : Mirrored f g) (a : A) :
    Mirrored (Function.update f a none) (Function.update g ((f a).getD default) none) ↔
      (f a = none → g default = none) := by
  rw [h.unset_iff]
  cases f a with
  | none => simp
  | some b => simp

theorem inverse_eraseByKey_iff [Inhabited V] (h : m.Inverse) (key : K) :
    (m.eraseByKey key).Inverse ↔ (m.first.find? key = none → m.second.find? default = none) := by
  rw [← unset_default_iff h key, Inverse, eraseByKey]
  dsimp only
  rw [StdMap.find?_erase_emplace, StdMap.getD_emplace, StdMap.find?_erase]

theorem inverse_eraseByValue_iff [Inhabited K] (h : m.Inverse) (value : V) :
    (m.eraseByValue value).Inverse ↔ (m.second.find? value = none → m.first.find? default = none) := by
  rw [← unset_default_iff (mirrored_comm.mp h) value, Inverse, eraseByValue]
  dsimp only
  rw [StdMap.find?_erase_emplace, StdMap.getD_emplace, StdMap.find?_erase, mirrored_comm]

variable [Inhabited K] [Inhabited V]

/-- An operation keeps the two maps inverse to each other if and only if its condition is met. -/
theorem consistent_iff (h : m.Inverse) (op : Operation K V) :
    m.Consistent op ↔ (m.perform op).2.Inverse := by
  cases op with
  | insert key value => exact (inverse_insert_iff h key value).symm
  | eraseByKey key => exact (inverse_eraseByKey_iff h key).symm
  | eraseByValue value => exact (inverse_eraseByValue_iff h value).symm
  | tryEraseByKey key =>
    simp only [Consistent, perform, tryEraseByKey, Prod.map_snd, id, true_iff]
    split_ifs with hcontains
    · apply (inverse_eraseByKey_iff h key).mpr
      intro hnone
      rw [OrdMap.contains, hnone] at hcontains
      cases hcontains
    · exact h
  | tryEraseByValue value =>
    simp only [Consistent, perform, tryEraseByValue, Prod.map_snd, id, true_iff]
    split_ifs with hcontains
    · apply (inverse_eraseByValue_iff h value).mpr
      intro hnone
      rw [OrdMap.contains, hnone] at hcontains
      cases hcontains
    · exact h
  | clear => exact iff_of_true trivial fun a b => ⟨fun heq => (by cases heq), fun heq => (by cases heq)⟩
  | existByKey key => exact iff_of_true trivial h
  | existByValue value => exact iff_of_true trivial h
  | getByKey key => exact iff_of_true trivial h
  | getByValue value => exact iff_of_true trivial h

/-- The runs of an empty map in which every operation meets its condition are those along which
the two maps stay exact inverses. -/
theorem consistent_iff_inverse (ops : List (Operation K V)) :
    (∃ m, RunWhere step Consistent ({} : Bimap K V) ops m) ↔
      ∀ pre, pre <+: ops → ∃ m, RunWhere step Unrestricted ({} : Bimap K V) pre m ∧ m.Inverse := by
  apply RunWhere.exists_iff_forall_prefix (fun (_ : List (Operation K V)) (m : Bimap K V) => m.Inverse)
  · exact fun a b => ⟨fun heq => (by cases heq), fun heq => (by cases heq)⟩
  · intro _ m op h
    rw [consistent_iff h]
    constructor
    · exact fun hinverse => ⟨trivial, _, rfl, hinverse⟩
    · rintro ⟨-, m', hstep, hinverse⟩
      rwa [← Except.ok.inj hstep] at hinverse

/-- A value that is inserted again with another key is in the first map twice. -/
theorem not_inverse_insert_insert :
    ∃ m, RunWhere step Unrestricted ({} : Bimap ℕ ℕ) [.insert 1 7, .insert 2 7] m ∧ ¬ m.Inverse := by
  refine ⟨_, .cons trivial rfl (.cons trivial rfl (.nil _)), ?_⟩
  intro h
  have hmirror := (h 1 7).mp (by decide)
  revert hmirror
  decide

end Bimap
end Sese.Container
