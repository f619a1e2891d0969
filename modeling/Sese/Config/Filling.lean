import Sese.Config.Value

/-!
# Filling containers

A tree may have a key several times in a dictionary. The parsers store a container before they fill
it, through `setRef`, so that it goes on with what the key has had: `fill` says what comes out.
Nothing but the last value of each key stays in `lastWins`.
-/
namespace Sese.Value

open Foundation
open Net.Http (byteOrder)

variable {δ : Type}

/-- The container of the same kind without anything in it. -/
def emptied : Value δ → Value δ
  | .list _ => .list []
  | _ => .dict []

mutual

/-- What becomes of a value that is put in the place of the first one; `none` if it is a container
that cannot go on with the first one. -/
def fill : Value δ → Value δ → Option (Value δ)
  | .list olds, .list values => (fillElements values).map fun news => .list (olds ++ news)
  | .dict acc, .dict members => (fillMembers acc members).map .dict
  | _, .list _ => none
  | _, .dict _ => none
  | _, value => some value

def fillElements : List (Value δ) → Option (List (Value δ))
  | [] => some []
  | value :: values => do
    let v ← fill (emptied value) value
    let vs ← fillElements values
    return v :: vs

/-- The members of a dictionary that has some. -/
def fillMembers : List (Bytes × Value δ) → List (Bytes × Value δ) → Option (List (Bytes × Value δ))
  | acc, [] => some acc
  | acc, (key, value) :: members => do
    let v ← fill (setRef acc key (emptied value)) value
    fillMembers (set acc key v) members

end

mutual

def lastWins : Value δ → Value δ
  | .list values => .list (lastWinsElements values)
  | .dict members => .dict (lastWinsMembers [] members)
  | value => value

def lastWinsElements : List (Value δ) → List (Value δ)
  | [] => []
  | value :: values => lastWins value :: lastWinsElements values

def lastWinsMembers : List (Bytes × Value δ) → List (Bytes × Value δ) → List (Bytes × Value δ)
  | acc, [] => acc
  | acc, (key, value) :: members => lastWinsMembers (set acc key (lastWins value)) members

end

theorem fillElements_cons (value : Value δ) (values : List (Value δ)) :
    fillElements (value :: values) =
      (fill (emptied value) value).bind fun v => (fillElements values).bind fun vs => some (v :: vs) :=
  rfl

theorem fillMembers_nil (acc : List (Bytes × Value δ)) : fillMembers acc [] = some acc := rfl

theorem fillMembers_cons (acc : List (Bytes × Value δ)) (key : Bytes) (value : Value δ)
    (members : List (Bytes × Value δ)) :
    fillMembers acc ((key, value) :: members) =
      (fill (setRef acc key (emptied value)) value).bind fun v =>
        fillMembers (set acc key v) members := rfl

theorem fill_list (olds values : List (Value δ)) :
    fill (.list olds) (.list values) =
      (fillElements values).map fun news => .list (olds ++ news) := rfl

theorem fill_dict (acc members : List (Bytes × Value δ)) :
    fill (.dict acc) (.dict members) = (fillMembers acc members).map .dict := rfl

theorem fill_word {value : Value δ} (h : value.isContainer = false) (start : Value δ) :
    fill start value = some value := by
  cases value with
  | list _ => cases h
  | dict _ => cases h
  | _ => cases start <;> simp [fill]

theorem lastWins_word {value : Value δ} (h : value.isContainer = false) : lastWins value = value := by
  cases value with
  | list _ => cases h
  | dict _ => cases h
  | _ => rfl

theorem fill_list_cons (olds : List (Value δ)) (value : Value δ) (values : List (Value δ)) :
    fill (.list olds) (.list (value :: values)) =
      (fill (emptied value) value).bind fun v => fill (.list (olds ++ [v])) (.list values) := by
  rw [fill_list, fillElements_cons]
  cases fill (emptied value) value with
  | none => rfl
  | some v => cases hvalues : fillElements values <;> simp [fill_list, hvalues]

theorem fill_dict_cons (acc : List (Bytes × Value δ)) (key : Bytes) (value : Value δ)
    (members : List (Bytes × Value δ)) :
    fill (.dict acc) (.dict ((key, value) :: members)) =
      (fill (setRef acc key (emptied value)) value).bind fun v =>
        fill (.dict (set acc key v)) (.dict members) := by
  rw [fill_dict, fillMembers_cons]
  cases fill (setRef acc key (emptied value)) value with
  | none => rfl
  | some v => rfl

theorem fillElements_append (front back : List (Value δ)) :
    fillElements (front ++ back) = (fillElements front).bind fun vs =>
      (fillElements back).map (vs ++ ·) := by
  induction front with
  | nil => exact (Option.map_id' (x := fillElements back)).symm
  | cons value front ih =>
    rw [List.cons_append, fillElements_cons, fillElements_cons, ih]
    cases fill (emptied value) value with
    | none => rfl
    | some v => cases fillElements front <;> cases fillElements back <;> rfl

theorem fillMembers_append (acc front back : List (Bytes × Value δ)) :
    fillMembers acc (front ++ back) = (fillMembers acc front).bind (fillMembers · back) := by
  induction front generalizing acc with
  | nil => rfl
  | cons e front ih =>
    obtain ⟨key, value⟩ := e
    rw [List.cons_append, fillMembers_cons, fillMembers_cons]
    cases fill (setRef acc key (emptied value)) value with
    | none => rfl
    | some v => exact ih (set acc key v)

/-- The keys of all dictionaries in the tree are in their order, so that none comes again. -/
def SortedKeys : Value δ → Prop
  | .dict members => Sorted members
  | _ => True

theorem fill_sorted {value : Value δ} (h : value.All SortedKeys) : fill (emptied value) value = some value := by
  induction value using tree_induction with
  | list values ih =>
    have hvalues : fillElements values = some values := by
      have hall : ∀ v ∈ values, fill (emptied v) v = some v := fun v hv => ih v hv (h.element hv)
      clear ih h
      induction values with
      | nil => rfl
      | cons v values ih =>
        obtain ⟨hv, hvalues⟩ := List.forall_mem_cons.mp hall
        rw [fillElements_cons, hv, ih hvalues]
        rfl
    rw [emptied, fill_list, hvalues]
    rfl
  | dict members ih =>
    have hmembers (acc : List (Bytes × Value δ)) (hsorted : Sorted (acc ++ members)) :
        fillMembers acc members = some (acc ++ members) := by
      have hall : ∀ e ∈ members, fill (emptied e.2) e.2 = some e.2 := fun e he => ih e he (h.member he)
      clear ih h
      induction members generalizing acc with
      | nil => rw [fillMembers_nil, List.append_nil]
      | cons e members ih =>
        obtain ⟨key, value⟩ := e
        obtain ⟨hvalue, hmembers⟩ := List.forall_mem_cons.mp hall
        obtain ⟨-, -, hlt⟩ := List.pairwise_append.mp hsorted
        have hset : set acc key value = acc ++ [(key, value)] :=
          OrdMap.insertEntry_append value fun a ha => hlt a ha (key, value) List.mem_cons_self
        have hnew : ∀ a ∈ acc, a.1 ≠ key := by
          intro a ha heq
          have hlt' := hlt a ha (key, value) List.mem_cons_self
          rw [heq] at hlt'
          exact hlt'.false
        have happend : acc ++ [(key, value)] ++ members = acc ++ (key, value) :: members :=
          List.append_assoc _ _ _
        rw [fillMembers_cons, setRef_new hnew, hvalue]
        change fillMembers (set acc key value) members = _
        rw [hset, ih _ (by rwa [happend]) hmembers, happend]
    change (fillMembers [] members).map Value.dict = _
    rw [hmembers [] h.self]
    rfl
  | null => rfl
  | bool _ => rfl
  | int _ => rfl
  | double _ => rfl
  | string _ => rfl
  | blob _ => rfl

def under (key : Bytes) (members : List (Bytes × Value δ)) : List (Value δ) :=
  (members.filter fun e => e.1 = key).map Prod.snd

/-- The values of a key one after the other. -/
def fillKey : Option (Value δ) → List (Value δ) → Option (Option (Value δ))
  | old, [] => some old
  | old, value :: values => do
    let v ← fill (old.getD (emptied value)) value
    fillKey (some v) values

theorem under_cons_self (key : Bytes) (value : Value δ) (members : List (Bytes × Value δ)) :
    under key ((key, value) :: members) = value :: under key members := by
  simp [under]

theorem under_cons_of_ne {key key' : Bytes} (h : key' ≠ key) (value : Value δ)
    (members : List (Bytes × Value δ)) : under key ((key', value) :: members) = under key members := by
  simp [under, h]

theorem fillMembers_find {acc members acc' : List (Bytes × Value δ)}
    (h : fillMembers acc members = some acc') (key : Bytes) :
    fillKey (find acc key) (under key members) = some (find acc' key) := by
  induction members generalizing acc with
  | nil =>
    rw [fillMembers_nil] at h
    cases h
    rfl
  | cons e members ih =>
    obtain ⟨name, value⟩ := e
    rw [fillMembers_cons] at h
    obtain ⟨v, hv, h⟩ := Option.bind_eq_some_iff.mp h
    have hrest := ih h
    by_cases hname : name = key
    · subst hname
      rw [find_set_self] at hrest
      rw [under_cons_self, fillKey, ← setRef, hv]
      exact hrest
    · rw [find_set_of_ne _ _ (Ne.symm hname)] at hrest
      rwa [under_cons_of_ne hname]

theorem fillMembers_of_keys {acc members : List (Bytes × Value δ)}
    (h : ∀ key, fillKey (find acc key) (under key members) ≠ none) :
    ∃ acc', fillMembers acc members = some acc' := by
  induction members generalizing acc with
  | nil => exact ⟨acc, rfl⟩
  | cons e members ih =>
    obtain ⟨name, value⟩ := e
    have hname := h name
    rw [under_cons_self, fillKey, ← setRef] at hname
    rw [fillMembers_cons]
    cases hv : fill (setRef acc name (emptied value)) value with
    | none => simp [hv] at hname
    | some v =>
      refine ih fun key => ?_
      by_cases hkey : key = name
      · subst hkey
        rw [find_set_self]
        simpa [hv] using hname
      · have hrest := h key
        rw [under_cons_of_ne (Ne.symm hkey)] at hrest
        rwa [find_set_of_ne _ _ hkey]

theorem fillMembers_sorted {acc members acc' : List (Bytes × Value δ)}
    (h : fillMembers acc members = some acc') (hsorted : Sorted acc) : Sorted acc' := by
  induction members generalizing acc with
  | nil =>
    rw [fillMembers_nil] at h
    cases h
    exact hsorted
  | cons e members ih =>
    obtain ⟨key, value⟩ := e
    rw [fillMembers_cons] at h
    obtain ⟨v, -, h⟩ := Option.bind_eq_some_iff.mp h
    exact ih h (hsorted.set key v)

def setAll (acc entries : List (Bytes × Value δ)) : List (Bytes × Value δ) :=
  entries.foldl (fun acc e => set acc e.1 e.2) acc

theorem setAll_sorted {acc : List (Bytes × Value δ)} (entries : List (Bytes × Value δ))
    (hsorted : Sorted acc) : Sorted (setAll acc entries) := by
  induction entries generalizing acc with
  | nil => exact hsorted
  | cons e entries ih => exact ih (hsorted.set e.1 e.2)

theorem setAll_find (acc entries : List (Bytes × Value δ)) (key : Bytes) :
    find (setAll acc entries) key = (under key entries).getLast?.or (find acc key) := by
  induction entries generalizing acc with
  | nil => rfl
  | cons e entries ih =>
    obtain ⟨name, value⟩ := e
    refine (ih (set acc name value)).trans ?_
    by_cases hname : name = key
    · subst hname
      rw [find_set_self, under_cons_self, List.getLast?_cons]
      cases (under name entries).getLast? <;> rfl
    · rw [find_set_of_ne _ _ (Ne.symm hname), under_cons_of_ne hname]

/-- The value is a dictionary in which each key has what the last of its occurrences means, and
which has no other keys. -/
def HasLast {α : Type} (meaning : α → Value δ) (occurrences : List (Bytes × α)) (value : Value δ) : Prop :=
  ∃ members, value = .dict members ∧ Sorted members ∧ ∀ key, find members key =
    (occurrences.filter fun e => e.1 = key).getLast?.map fun e => meaning e.2

theorem hasLast_iff {α : Type} (meaning : α → Value δ) (occurrences : List (Bytes × α)) (value : Value δ) :
    HasLast meaning occurrences value ↔
      value = .dict (setAll [] (occurrences.map fun e => (e.1, meaning e.2))) := by
  have hfind (key : Bytes) : find (setAll [] (occurrences.map fun e => (e.1, meaning e.2))) key =
      (occurrences.filter fun e => e.1 = key).getLast?.map fun e => meaning e.2 := by
    have hempty : find ([] : List (Bytes × Value δ)) key = none := rfl
    rw [setAll_find, hempty, Option.or_none, under, List.filter_map, List.map_map, List.getLast?_map]
    rfl
  constructor
  · rintro ⟨members, rfl, hsorted, hmembers⟩
    rw [hsorted.ext (setAll_sorted _ .nil) fun key => (hmembers key).trans (hfind key).symm]
  · rintro rfl
    exact ⟨_, rfl, setAll_sorted _ .nil, hfind⟩

theorem lastWinsMembers_eq (acc members : List (Bytes × Value δ)) :
    lastWinsMembers acc members = setAll acc (members.map fun e => (e.1, lastWins e.2)) := by
  induction members generalizing acc with
  | nil =>
    rw [lastWinsMembers]
    rfl
  | cons e members ih =>
    rw [lastWinsMembers, ih]
    rfl

theorem lastWinsMembers_sorted {acc : List (Bytes × Value δ)} (members : List (Bytes × Value δ))
    (hsorted : Sorted acc) : Sorted (lastWinsMembers acc members) := by
  rw [lastWinsMembers_eq]
  exact setAll_sorted _ hsorted

theorem hasLast_lastWins_iff (members : List (Bytes × Value δ)) (value : Value δ) :
    HasLast lastWins members value ↔ value = lastWins (.dict members) := by
  rw [hasLast_iff, lastWins, lastWinsMembers_eq]

theorem find_lastWinsMembers (members : List (Bytes × Value δ)) (key : Bytes) :
    find (lastWinsMembers [] members) key = (under key members).getLast?.map lastWins := by
  have hunder : under key (members.map fun e => (e.1, lastWins e.2)) = (under key members).map lastWins := by
    rw [under, under, List.filter_map, List.map_map, List.map_map]
    rfl
  rw [lastWinsMembers_eq, setAll_find, hunder, List.getLast?_map]
  exact Option.or_none

/-- A dictionary can be filled if each of its keys can, and all keys have the last of their values
if each of them has. -/
theorem fillMembers_iff (members : List (Bytes × Value δ)) (strict : Bool) :
    (∃ acc, fillMembers [] members = some acc ∧ (strict → acc = lastWinsMembers [] members)) ↔
      ∀ key, ∃ value, fillKey none (under key members) = some value ∧
        (strict → value = (under key members).getLast?.map lastWins) := by
  constructor
  · rintro ⟨acc, hacc, hstrict⟩ key
    refine ⟨find acc key, fillMembers_find hacc key, fun h => ?_⟩
    rw [hstrict h, find_lastWinsMembers]
  · intro h
    have hkeys (key : Bytes) : fillKey (find [] key) (under key members) ≠ none := by
      intro hnone
      obtain ⟨value, hvalue, -⟩ := h key
      cases hnone.symm.trans hvalue
    obtain ⟨acc, hacc⟩ := fillMembers_of_keys hkeys
    refine ⟨acc, hacc, fun hstrict => ?_⟩
    apply Sorted.ext (fillMembers_sorted hacc .nil) (lastWinsMembers_sorted members .nil)
    intro key
    obtain ⟨value, hvalue, hkey⟩ := h key
    rw [find_lastWinsMembers, ← hkey hstrict]
    exact Option.some.inj ((fillMembers_find hacc key).symm.trans hvalue)

end Sese.Value
