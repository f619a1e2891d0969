import Sese.Config.Filling
import Sese.Config.JsonDocument
import Sese.Config.YamlLayout

/-!
# Keys that occur several times

For which trees nothing but the last value of each key stays when they are filled (`Settles`), and
so for which objects and mappings the parsers keep the last value of each key, and nothing else.
-/
namespace Sese.Value

open Foundation

variable {δ : Type}

/-- The values of a key that can follow each other: containers of one kind, and then what is no
container. -/
inductive Occurrences (δ : Type) where
  | absent
  | lists (earlier : List (List (Value δ))) (last : List (Value δ))
  | dicts (earlier : List (List (Bytes × Value δ))) (last : List (Bytes × Value δ))
  | word (before : Occurrences δ) (last : Value δ) (scalar : last.isContainer = false)

namespace Occurrences

/-- Another value of the key, if it can follow. -/
def add (o : Occurrences δ) (value : Value δ) : Option (Occurrences δ) :=
  if scalar : value.isContainer = false then some (.word o value scalar)
  else
    match o, value with
    | .absent, .list values => some (.lists [] values)
    | .absent, .dict members => some (.dicts [] members)
    | .lists earlier last, .list values => some (.lists (earlier ++ [last]) values)
    | .dicts earlier last, .dict members => some (.dicts (earlier ++ [last]) members)
    | _, _ => none

def last? : Occurrences δ → Option (Value δ)
  | .absent => none
  | .lists _ last => some (.list last)
  | .dicts _ last => some (.dict last)
  | .word _ last _ => some last

/-- What the key has behind these values. -/
def filled : Occurrences δ → Option (Option (Value δ))
  | .absent => some none
  | .lists earlier last =>
    (fillElements (earlier.flatten ++ last)).map fun values => some (.list values)
  | .dicts earlier last =>
    (fillMembers [] (earlier.flatten ++ last)).map fun members => some (.dict members)
  | .word before last _ => before.filled.map fun _ => some last

theorem add_last {o o' : Occurrences δ} {value : Value δ} (h : o.add value = some o') :
    o'.last? = some value := by
  rw [add] at h
  split_ifs at h with hscalar
  · cases h
    rfl
  · cases o <;> cases value <;> cases h <;> rfl

theorem add_filled (o : Occurrences δ) (value : Value δ) :
    (o.filled.bind fun old => (fill (old.getD (emptied value)) value).map some) =
      (o.add value).bind filled := by
  rw [add]
  split_ifs with hscalar
  · rw [Option.bind_some, filled]
    cases o.filled with
    | none => rfl
    | some old => exact congrArg (Option.map some) (fill_word hscalar _)
  · cases value with
    | list values =>
      cases o with
      | absent =>
        rw [filled, Option.bind_some, Option.getD_none, emptied, fill, Option.bind_some, filled,
          Option.map_map]
        rfl
      | lists earlier last =>
        rw [Option.bind_some, filled, filled, List.flatten_append, List.flatten_singleton,
          fillElements_append (earlier.flatten ++ last)]
        cases fillElements (earlier.flatten ++ last) with
        | none => rfl
        | some olds => cases hnews : fillElements values <;> simp [fill, hnews]
      | dicts earlier last =>
        rw [filled]
        cases fillMembers [] (earlier.flatten ++ last) <;> simp [fill]
      | word before last scalar =>
        rw [filled]
        cases before.filled <;> cases last <;> first | rfl | cases scalar
    | dict members =>
      cases o with
      | absent =>
        have hempty : emptied (.dict members : Value δ) = .dict [] := rfl
        rw [filled, Option.bind_some, Option.getD_none, hempty, fill, Option.bind_some, filled,
          Option.map_map]
        rfl
      | lists earlier last =>
        rw [filled]
        cases fillElements (earlier.flatten ++ last) <;> simp [fill]
      | dicts earlier last =>
        rw [Option.bind_some, filled, filled, List.flatten_append, List.flatten_singleton,
          fillMembers_append [] (earlier.flatten ++ last)]
        cases fillMembers [] (earlier.flatten ++ last) with
        | none => rfl
        | some olds => cases hnews : fillMembers olds members <;> simp [fill, hnews]
      | word before last scalar =>
        rw [filled]
        cases before.filled <;> cases last <;> first | rfl | cases scalar
    | _ => exact absurd rfl hscalar

/-- The values of a key in their order, if each of them can follow. -/
def of (values : List (Value δ)) : Option (Occurrences δ) := values.foldlM add .absent

theorem foldlM_filled (o : Occurrences δ) (values : List (Value δ)) :
    (o.filled.bind fun old => fillKey old values) = (values.foldlM add o).bind filled := by
  induction values generalizing o with
  | nil =>
    change _ = o.filled
    cases o.filled <;> rfl
  | cons value values ih =>
    calc
      (o.filled.bind fun old => fillKey old (value :: values))
          = (o.filled.bind fun old => (fill (old.getD (emptied value)) value).map some).bind
              fun old => fillKey old values := by
            cases o.filled with
            | none => rfl
            | some old =>
              rw [Option.bind_some, Option.bind_some, fillKey]
              cases fill (old.getD (emptied value)) value <;> rfl
      _ = ((o.add value).bind filled).bind fun old => fillKey old values := by rw [add_filled]
      _ = ((value :: values).foldlM add o).bind filled := by
        rw [List.foldlM_cons]
        cases o.add value with
        | none => rfl
        | some next => exact ih next

theorem of_filled (values : List (Value δ)) : fillKey none values = (of values).bind filled :=
  foldlM_filled .absent values

theorem foldlM_last {o o' : Occurrences δ} {values : List (Value δ)}
    (h : values.foldlM add o = some o') : o'.last? = values.getLast?.or o.last? := by
  induction values generalizing o with
  | nil =>
    cases h
    rfl
  | cons value values ih =>
    rw [List.foldlM_cons] at h
    obtain ⟨next, hnext, h⟩ := Option.bind_eq_some_iff.mp h
    rw [ih h, add_last hnext, List.getLast?_cons]
    cases values.getLast? <;> rfl

theorem of_last {values : List (Value δ)} {o : Occurrences δ} (h : of values = some o) :
    o.last? = values.getLast? := by
  rw [foldlM_last h]
  exact Option.or_none

end Occurrences

mutual

/-- A container of its kind without anything in it takes the value. If it is strict, nothing but the
last value of each key stays. -/
inductive Settles : Bool → Value δ → Prop
  | word {strict : Bool} {value : Value δ} : value.isContainer = false → Settles strict value
  | list {strict : Bool} {values : List (Value δ)} : (∀ v ∈ values, Settles strict v) →
    Settles strict (.list values)
  | dict {strict : Bool} {members : List (Bytes × Value δ)} (keys : Bytes → Occurrences δ) :
    (∀ key, Occurrences.of (under key members) = some (keys key)) →
    (∀ key, KeySettles strict (keys key)) → Settles strict (.dict members)

/-- The same for the values of a key. Containers are filled as one, so that the last one is left only
if those before it have no elements, or no keys that it does not have. -/
inductive KeySettles : Bool → Occurrences δ → Prop
  | absent {strict : Bool} : KeySettles strict .absent
  | lists {strict : Bool} {earlier : List (List (Value δ))} {last : List (Value δ)} :
    (∀ v ∈ earlier.flatten ++ last, Settles strict v) → (strict → earlier.flatten = []) →
    KeySettles strict (.lists earlier last)
  | dicts {strict : Bool} {earlier : List (List (Bytes × Value δ))} {last : List (Bytes × Value δ)} :
    Settles strict (.dict (earlier.flatten ++ last)) →
    (strict → ∀ e ∈ earlier.flatten, ∃ e' ∈ last, e'.1 = e.1) →
    KeySettles strict (.dicts earlier last)
  | word {strict : Bool} {before : Occurrences δ} {last : Value δ} {scalar : last.isContainer = false} :
    KeySettles false before → KeySettles strict (.word before last scalar)

end

/-- What `fill` has to do with a value that settles. -/
def Fills (strict : Bool) (value : Value δ) : Prop :=
  ∃ filled, fill (emptied value) value = some filled ∧ (strict → filled = lastWins value)

def KeyFills (strict : Bool) (o : Occurrences δ) : Prop :=
  ∃ filled, o.filled = some filled ∧ (strict → filled = o.last?.map lastWins)

theorem fills_word {value : Value δ} (h : value.isContainer = false) (strict : Bool) :
    Fills strict value := ⟨value, fill_word h _, fun _ => (lastWins_word h).symm⟩

theorem fillElements_iff (values : List (Value δ)) (strict : Bool) :
    (∃ news, fillElements values = some news ∧ (strict → news = lastWinsElements values)) ↔
      ∀ v ∈ values, Fills strict v := by
  induction values with
  | nil => simp [fillElements, lastWinsElements]
  | cons value values ih =>
    rw [List.forall_mem_cons, ← ih]
    constructor
    · rintro ⟨news, hnews, hstrict⟩
      rw [fillElements] at hnews
      obtain ⟨v, hv, hnews⟩ := Option.bind_eq_some_iff.mp hnews
      obtain ⟨vs, hvs, hnews⟩ := Option.bind_eq_some_iff.mp hnews
      cases hnews
      rw [lastWinsElements, List.cons_eq_cons] at hstrict
      exact ⟨⟨v, hv, fun h => (hstrict h).1⟩, vs, hvs, fun h => (hstrict h).2⟩
    · rintro ⟨⟨v, hv, hfirst⟩, vs, hvs, hrest⟩
      refine ⟨v :: vs, ?_, fun h => ?_⟩
      · rw [fillElements, hv, hvs]
        rfl
      · rw [lastWinsElements, hfirst h, hrest h]

theorem fillElements_length {values news : List (Value δ)} (h : fillElements values = some news) :
    news.length = values.length := by
  induction values generalizing news with
  | nil =>
    cases h
    rfl
  | cons value values ih =>
    rw [fillElements] at h
    obtain ⟨v, -, h⟩ := Option.bind_eq_some_iff.mp h
    obtain ⟨vs, hvs, h⟩ := Option.bind_eq_some_iff.mp h
    cases h
    rw [List.length_cons, List.length_cons, ih hvs]

theorem lastWinsElements_length (values : List (Value δ)) :
    (lastWinsElements values).length = values.length := by
  induction values with
  | nil => rfl
  | cons value values ih => rw [lastWinsElements, List.length_cons, List.length_cons, ih]

theorem fills_list (values : List (Value δ)) (strict : Bool) :
    Fills strict (.list values) ↔ ∀ v ∈ values, Fills strict v := by
  rw [← fillElements_iff]
  simp [Fills, emptied, fill, lastWins]

theorem fills_dict (members : List (Bytes × Value δ)) (strict : Bool) :
    Fills strict (.dict members) ↔
      ∀ key, ∃ o, Occurrences.of (under key members) = some o ∧ KeyFills strict o := by
  have hdict : Fills strict (.dict members) ↔
      ∃ acc, fillMembers [] members = some acc ∧ (strict → acc = lastWinsMembers [] members) := by
    simp [Fills, emptied, fill, lastWins]
  rw [hdict, fillMembers_iff]
  refine forall_congr' fun key => ?_
  rw [Occurrences.of_filled]
  constructor
  · rintro ⟨value, hvalue, hstrict⟩
    obtain ⟨o, ho, hfilled⟩ := Option.bind_eq_some_iff.mp hvalue
    exact ⟨o, ho, value, hfilled, by rwa [Occurrences.of_last ho]⟩
  · rintro ⟨o, ho, value, hfilled, hstrict⟩
    refine ⟨value, Option.bind_eq_some_iff.mpr ⟨o, ho, hfilled⟩, ?_⟩
    rwa [Occurrences.of_last ho] at hstrict

theorem keyFills_lists (earlier : List (List (Value δ))) (last : List (Value δ)) (strict : Bool) :
    KeyFills strict (.lists earlier last) ↔
      (∀ v ∈ earlier.flatten ++ last, Fills strict v) ∧ (strict → earlier.flatten = []) := by
  rw [← fillElements_iff]
  constructor
  · rintro ⟨filled, hfilled, hstrict⟩
    obtain ⟨news, hnews, rfl⟩ := Option.map_eq_some_iff.mp hfilled
    have hnil : strict → earlier.flatten = [] := by
      intro h
      have heq : news = lastWinsElements last := by simpa [Occurrences.last?, lastWins] using hstrict h
      have hlength := fillElements_length hnews
      rw [heq, lastWinsElements_length, List.length_append] at hlength
      exact List.length_eq_zero_iff.mp (by omega)
    refine ⟨⟨news, hnews, fun h => ?_⟩, hnil⟩
    rw [hnil h, List.nil_append]
    simpa [Occurrences.last?, lastWins] using hstrict h
  · rintro ⟨⟨news, hnews, hstrict⟩, hnil⟩
    refine ⟨some (.list news), Option.map_eq_some_iff.mpr ⟨news, hnews, rfl⟩, fun h => ?_⟩
    rw [hstrict h, hnil h]
    simp [Occurrences.last?, lastWins]

theorem fillKey_isSome {old filled : Option (Value δ)} {values : List (Value δ)}
    (h : fillKey old values = some filled) (hold : old.isSome ∨ values ≠ []) : filled.isSome := by
  induction values generalizing old with
  | nil =>
    cases h
    exact hold.resolve_right fun hne => hne rfl
  | cons value values ih =>
    rw [fillKey] at h
    obtain ⟨v, -, h⟩ := Option.bind_eq_some_iff.mp h
    exact ih h (.inl rfl)

theorem under_append (key : Bytes) (front back : List (Bytes × Value δ)) :
    under key (front ++ back) = under key front ++ under key back := by
  simp [under]

theorem under_eq_nil (key : Bytes) (members : List (Bytes × Value δ)) :
    under key members = [] ↔ ∀ e ∈ members, e.1 ≠ key := by
  simp [under]

theorem lastWinsMembers_append (front back : List (Bytes × Value δ)) :
    lastWinsMembers [] (front ++ back) = lastWinsMembers [] back ↔
      ∀ e ∈ front, ∃ e' ∈ back, e'.1 = e.1 := by
  constructor
  · intro h e he
    by_contra hnone
    have hback : under e.1 back = [] :=
      (under_eq_nil e.1 back).mpr fun e' he' heq => hnone ⟨e', he', heq⟩
    have hkey := find_lastWinsMembers (front ++ back) e.1
    rw [h, find_lastWinsMembers, under_append, hback, List.append_nil] at hkey
    have hfront : under e.1 front = [] := by simpa using hkey.symm
    exact (under_eq_nil e.1 front).mp hfront e he rfl
  · intro h
    apply Sorted.ext (lastWinsMembers_sorted _ .nil) (lastWinsMembers_sorted _ .nil)
    intro key
    rw [find_lastWinsMembers, find_lastWinsMembers, under_append, List.getLast?_append]
    by_cases hback : under key back = []
    · have hfront : under key front = [] := by
        rw [under_eq_nil] at hback ⊢
        intro e he heq
        obtain ⟨e', he', hsame⟩ := h e he
        exact hback e' he' (hsame.trans heq)
      rw [hfront, hback]
      rfl
    · rw [List.getLast?_eq_getLast_of_ne_nil hback]
      rfl

theorem keyFills_dicts (earlier : List (List (Bytes × Value δ))) (last : List (Bytes × Value δ))
    (strict : Bool) :
    KeyFills strict (.dicts earlier last) ↔ Fills strict (.dict (earlier.flatten ++ last)) ∧
      (strict → ∀ e ∈ earlier.flatten, ∃ e' ∈ last, e'.1 = e.1) := by
  have hdict : Fills strict (.dict (earlier.flatten ++ last)) ↔
      ∃ acc, fillMembers [] (earlier.flatten ++ last) = some acc ∧
        (strict → acc = lastWinsMembers [] (earlier.flatten ++ last)) := by
    simp [Fills, emptied, fill, lastWins]
  have hkey : KeyFills strict (.dicts earlier last) ↔
      ∃ acc, fillMembers [] (earlier.flatten ++ last) = some acc ∧
        (strict → acc = lastWinsMembers [] last) := by
    simp [KeyFills, Occurrences.filled, Occurrences.last?, lastWins]
  rw [hdict, hkey]
  constructor
  · rintro ⟨acc, hacc, hstrict⟩
    have hagain : strict → ∀ e ∈ earlier.flatten, ∃ e' ∈ last, e'.1 = e.1 := by
      intro h e he
      by_contra hnone
      have hlast : under e.1 last = [] :=
        (under_eq_nil e.1 last).mpr fun e' he' heq => hnone ⟨e', he', heq⟩
      have hne : under e.1 (earlier.flatten ++ last) ≠ [] := by
        intro hnil
        exact (under_eq_nil e.1 _).mp hnil e (List.mem_append_left _ he) rfl
      have hfound := fillKey_isSome (fillMembers_find hacc e.1) (.inr hne)
      rw [hstrict h, find_lastWinsMembers, hlast] at hfound
      cases hfound
    exact ⟨⟨acc, hacc, fun h => by rw [hstrict h, (lastWinsMembers_append _ _).mpr (hagain h)]⟩, hagain⟩
  · rintro ⟨⟨acc, hacc, hstrict⟩, hagain⟩
    exact ⟨acc, hacc, fun h => by rw [hstrict h, (lastWinsMembers_append _ _).mpr (hagain h)]⟩

theorem keyFills_word (before : Occurrences δ) {last : Value δ} (scalar : last.isContainer = false)
    (strict : Bool) : KeyFills strict (.word before last scalar) ↔ KeyFills false before := by
  simp [KeyFills, Occurrences.filled, Occurrences.last?, lastWins_word scalar]

mutual

def depth : Value δ → ℕ
  | .list values => depthElements values + 1
  | .dict members => depthMembers members + 1
  | _ => 0

def depthElements : List (Value δ) → ℕ
  | [] => 0
  | value :: values => max value.depth (depthElements values)

def depthMembers : List (Bytes × Value δ) → ℕ
  | [] => 0
  | (_, value) :: members => max value.depth (depthMembers members)

end

theorem depthElements_le {values : List (Value δ)} {n : ℕ} :
    depthElements values ≤ n ↔ ∀ v ∈ values, v.depth ≤ n := by
  induction values with
  | nil => simp [depthElements]
  | cons value values ih => rw [depthElements, max_le_iff, ih, List.forall_mem_cons]

theorem depthMembers_le {members : List (Bytes × Value δ)} {n : ℕ} :
    depthMembers members ≤ n ↔ ∀ e ∈ members, e.2.depth ≤ n := by
  induction members with
  | nil => simp [depthMembers]
  | cons e members ih => rw [depthMembers, max_le_iff, ih, List.forall_mem_cons]

theorem depth_list_append (front back : List (Value δ)) :
    (Value.list (front ++ back)).depth = max (Value.list front).depth (Value.list back).depth := by
  have happend : depthElements (front ++ back) = max (depthElements front) (depthElements back) := by
    induction front with
    | nil => simp [depthElements]
    | cons value front ih => rw [List.cons_append, depthElements, depthElements, ih, max_assoc]
  rw [depth, depth, depth, happend, Nat.add_max_add_right]

theorem depth_dict_append (front back : List (Bytes × Value δ)) :
    (Value.dict (front ++ back)).depth = max (Value.dict front).depth (Value.dict back).depth := by
  have happend : depthMembers (front ++ back) = max (depthMembers front) (depthMembers back) := by
    induction front with
    | nil => simp [depthMembers]
    | cons e front ih => rw [List.cons_append, depthMembers, depthMembers, ih, max_assoc]
  rw [depth, depth, depth, happend, Nat.add_max_add_right]

/-- What a key is filled with is no deeper than this. -/
def Occurrences.Within (n : ℕ) : Occurrences δ → Prop
  | .absent => True
  | .lists earlier last => (Value.list (earlier.flatten ++ last)).depth ≤ n
  | .dicts earlier last => (Value.dict (earlier.flatten ++ last)).depth ≤ n
  | .word before _ _ => before.Within n

theorem Occurrences.add_within {o o' : Occurrences δ} {value : Value δ} {n : ℕ}
    (h : o.add value = some o') (ho : o.Within n) (hvalue : value.depth ≤ n) : o'.Within n := by
  rw [add] at h
  split_ifs at h with hscalar
  · cases h
    exact ho
  · cases o with
    | absent =>
      cases value <;> cases h
      · exact hvalue
      · exact hvalue
    | lists earlier last =>
      cases value <;> cases h
      rw [Within, List.flatten_append, List.flatten_singleton, depth_list_append]
      exact max_le ho hvalue
    | dicts earlier last =>
      cases value <;> cases h
      rw [Within, List.flatten_append, List.flatten_singleton, depth_dict_append]
      exact max_le ho hvalue
    | word before last scalar => cases value <;> cases h

theorem Occurrences.of_within {values : List (Value δ)} {o : Occurrences δ} {n : ℕ}
    (h : of values = some o) (hvalues : ∀ v ∈ values, v.depth ≤ n) : o.Within n := by
  have hfold (start : Occurrences δ) (hstart : start.Within n)
      (hfold : values.foldlM add start = some o) : o.Within n := by
    clear h
    induction values generalizing start with
    | nil =>
      cases hfold
      exact hstart
    | cons value values ih =>
      rw [List.foldlM_cons] at hfold
      obtain ⟨next, hnext, hfold⟩ := Option.bind_eq_some_iff.mp hfold
      obtain ⟨hvalue, hvalues⟩ := List.forall_mem_cons.mp hvalues
      exact ih hvalues next (add_within hnext hstart hvalue) hfold
  exact hfold .absent trivial h

theorem keyFills_iff {n : ℕ}
    (hfills : ∀ (v : Value δ) (strict : Bool), v.depth ≤ n → (Fills strict v ↔ Settles strict v))
    (o : Occurrences δ) (strict : Bool) (ho : o.Within n) : KeyFills strict o ↔ KeySettles strict o := by
  induction o generalizing strict with
  | absent => exact ⟨fun _ => .absent, fun _ => ⟨none, rfl, fun _ => rfl⟩⟩
  | lists earlier last =>
    have hvalues (v : Value δ) (hv : v ∈ earlier.flatten ++ last) : v.depth ≤ n := by
      have hlt : depthElements (earlier.flatten ++ last) + 1 ≤ n := ho
      exact depthElements_le.mp (by omega) v hv
    rw [keyFills_lists]
    constructor
    · rintro ⟨hall, hnil⟩
      exact .lists (fun v hv => (hfills v strict (hvalues v hv)).mp (hall v hv)) hnil
    · intro h
      cases h with
      | lists hall hnil => exact ⟨fun v hv => (hfills v strict (hvalues v hv)).mpr (hall v hv), hnil⟩
  | dicts earlier last =>
    rw [keyFills_dicts, hfills _ strict ho]
    constructor
    · rintro ⟨hall, hagain⟩
      exact .dicts hall hagain
    · intro h
      cases h with
      | dicts hall hagain => exact ⟨hall, hagain⟩
  | word before last scalar ih =>
    rw [keyFills_word, ih false ho]
    constructor
    · exact .word
    · intro h
      cases h with
      | word h => exact h

/-- Which values can be filled, and with which nothing but the last value of each key stays. -/
theorem fills_iff (value : Value δ) (strict : Bool) : Fills strict value ↔ Settles strict value := by
  have hall (n : ℕ) : ∀ (v : Value δ) (strict : Bool), v.depth ≤ n → (Fills strict v ↔ Settles strict v) := by
    have hword (v : Value δ) (strict : Bool) (hscalar : v.isContainer = false) :
        Fills strict v ↔ Settles strict v := iff_of_true (fills_word hscalar strict) (.word hscalar)
    induction n with
    | zero =>
      intro v strict hdepth
      cases v with
      | list values => exact absurd hdepth (Nat.not_succ_le_zero _)
      | dict members => exact absurd hdepth (Nat.not_succ_le_zero _)
      | _ => exact hword _ strict rfl
    | succ n ih =>
      intro v strict hdepth
      cases v with
      | list values =>
        have hvalues := depthElements_le.mp (Nat.le_of_succ_le_succ hdepth)
        rw [fills_list]
        constructor
        · intro h
          exact .list fun v hv => (ih v strict (hvalues v hv)).mp (h v hv)
        · intro h v hv
          cases h with
          | word hscalar => cases hscalar
          | list h => exact (ih v strict (hvalues v hv)).mpr (h v hv)
      | dict members =>
        have hmembers := depthMembers_le.mp (Nat.le_of_succ_le_succ hdepth)
        have hkeys {key : Bytes} {o : Occurrences δ} (ho : Occurrences.of (under key members) = some o) :
            KeyFills strict o ↔ KeySettles strict o := by
          apply keyFills_iff ih o strict (Occurrences.of_within ho _)
          intro v hv
          obtain ⟨e, he, rfl⟩ := List.mem_map.mp hv
          exact hmembers e (List.mem_of_mem_filter he)
        rw [fills_dict]
        constructor
        · intro h
          choose keys hof hfilled using h
          exact .dict keys hof fun key => (hkeys (hof key)).mp (hfilled key)
        · intro h key
          cases h with
          | word hscalar => cases hscalar
          | dict keys hof hsettles => exact ⟨keys key, hof key, (hkeys (hof key)).mpr (hsettles key)⟩
      | _ => exact hword _ strict rfl
  exact hall _ value strict le_rfl

theorem exists_fill_iff (value : Value δ) :
    (∃ filled, fill (emptied value) value = some filled) ↔ Settles false value := by
  rw [← fills_iff]
  simp [Fills]

theorem fill_eq_lastWins_iff (value : Value δ) :
    fill (emptied value) value = some (lastWins value) ↔ Settles true value := by
  rw [← fills_iff]
  simp [Fills]

theorem fillMembers_eq_lastWins_iff (members : List (Bytes × Value δ)) :
    fillMembers [] members = some (lastWinsMembers [] members) ↔ Settles true (.dict members) := by
  rw [← fill_eq_lastWins_iff]
  simp [emptied, fill, lastWins]

end Sese.Value

namespace Sese.Json

open Foundation
open Value (fill fillMembers emptied lastWins lastWinsElements lastWinsMembers)

variable {δ : Type} [Double δ]

mutual

theorem lastWins_tree {doc : Doc} {tree : Value δ} (h : doc.tree = some tree) : doc.value = lastWins tree := by
  match doc with
  | .null =>
    cases h
    rfl
  | .bool b =>
    cases h
    rfl
  | .number text =>
    rw [Doc.tree] at h
    rw [Doc.value]
    cases hbasic : (parseBasic text : Except Fault (Value δ)) with
    | error fault =>
      rw [hbasic] at h
      cases h
    | ok value =>
      rw [hbasic] at h
      cases h
      exact (Value.lastWins_word (parseBasic_ne_container hbasic)).symm
  | .string raw =>
    cases h
    rfl
  | .array docs =>
    obtain ⟨trees, htrees, rfl⟩ := Option.map_eq_some_iff.mp h
    rw [Doc.value, lastWins, lastWins_elementTrees htrees]
  | .object members =>
    obtain ⟨trees, htrees, rfl⟩ := Option.map_eq_some_iff.mp h
    rw [Doc.value, lastWins, lastWins_memberTrees htrees]

theorem lastWins_elementTrees {docs : List Doc} {trees : List (Value δ)} (h : elementTrees docs = some trees) :
    elementValues docs = lastWinsElements trees := by
  match docs with
  | [] =>
    cases h
    rfl
  | doc :: docs =>
    obtain ⟨tree, htree, h⟩ := Option.bind_eq_some_iff.mp h
    obtain ⟨others, hothers, h⟩ := Option.bind_eq_some_iff.mp h
    cases h
    rw [elementValues, lastWinsElements, lastWins_tree htree, lastWins_elementTrees hothers]

theorem lastWins_memberTrees {members : List (Bytes × Doc)} {trees acc : List (Bytes × Value δ)}
    (h : memberTrees members = some trees) : memberValues acc members = lastWinsMembers acc trees := by
  match members with
  | [] =>
    cases h
    rw [memberValues, lastWinsMembers]
  | (raw, doc) :: members =>
    obtain ⟨tree, htree, h⟩ := Option.bind_eq_some_iff.mp h
    obtain ⟨others, hothers, h⟩ := Option.bind_eq_some_iff.mp h
    cases h
    rw [memberValues, lastWinsMembers, lastWins_tree htree, lastWins_memberTrees hothers]

end

theorem memberValues_eq (acc : List (Bytes × Value δ)) (members : List (Bytes × Doc)) :
    memberValues acc members = Value.setAll acc (members.map fun e => (e.1, e.2.value)) := by
  induction members generalizing acc with
  | nil =>
    rw [memberValues]
    rfl
  | cons e members ih =>
    rw [memberValues, ih]
    rfl

variable {members : List (Bytes × Doc)} {before text behind : Bytes}

theorem parse_object_iff (hbefore : Blank before) (htext : Text (.object members) text)
    (hbehind : Blank behind) (entries : List (Bytes × Value δ)) :
    parse (before ++ (text ++ behind)) = .ok (.dict entries) ↔
      ((memberTrees members).bind fun trees => fillMembers [] trees) = some entries := by
  obtain ⟨inside, hinside, hiff⟩ := read_object_iff htext (htext.readAs_members (δ := δ)) []
  have htokens : tokenizer .between (before ++ (text ++ behind)) = some ([123] :: inside) := by
    rw [scan_blank hbefore, scan_text htext (.inl rfl), tokenizer_blank hbehind, hinside]
    simp [found]
  have hfill : ((memberTrees members).bind fun trees => fillMembers [] trees) = some entries ↔
      ((memberTrees members).bind fun trees => fill (.dict []) (.dict trees)) = some (.dict entries) := by
    cases (memberTrees members : Option (List (Bytes × Value δ))) <;> simp [fill]
  rw [hfill]
  simp only [List.append_nil] at hiff
  constructor
  · intro hparse
    rcases parse_cases (δ := δ) (before ++ (text ++ behind)) with
      haccepted | ⟨word, fault, hcomes, hfault⟩ | hnull
    · obtain ⟨tokens, value, htokens', hroot⟩ := haccepted
      obtain rfl := Option.some.inj (htokens'.symm.trans htokens)
      obtain ⟨hopens, hread⟩ := hroot
      obtain rfl := hopens.unique .object
      have hvalue : parse (before ++ (text ++ behind)) = .ok value := by
        rw [parse, htokens]
        exact (ReadsRoot.mk .object hread).parseTokens_eq
      cases hvalue.symm.trans hparse
      exact ((hiff _ _ _).mp hread).2
    · rw [hcomes.parse_eq hfault] at hparse
      cases hparse
    · rw [hnull] at hparse
      cases hparse
  · intro h
    obtain ⟨trees, htrees, hfilled⟩ := Option.bind_eq_some_iff.mp h
    have htree : (Doc.object members).tree = some (.dict trees) := by
      rw [Doc.tree, htrees]
      rfl
    exact parse_of_fill hbefore htext hbehind rfl htree hfilled

/-- Each key has the last of its values exactly when all numbers have one and the object settles. -/
theorem object_last_iff (hbefore : Blank before) (htext : Text (.object members) text)
    (hbehind : Blank behind) :
    (∃ value : Value δ, parse (before ++ (text ++ behind)) = .ok value ∧
      value.HasLast Doc.value members) ↔
    ∃ trees : List (Bytes × Value δ), memberTrees members = some trees ∧
      (Value.dict trees).Settles true := by
  have hparse := parse_object_iff (δ := δ) hbefore htext hbehind
  have hlast {trees : List (Bytes × Value δ)} (htrees : memberTrees members = some trees) :
      Value.setAll [] (members.map fun e => (e.1, e.2.value)) = lastWinsMembers [] trees := by
    rw [← memberValues_eq, lastWins_memberTrees htrees]
  constructor
  · rintro ⟨value, hvalue, hhas⟩
    obtain rfl := (Value.hasLast_iff _ _ _).mp hhas
    obtain ⟨trees, htrees, hfill⟩ := Option.bind_eq_some_iff.mp ((hparse _).mp hvalue)
    refine ⟨trees, htrees, (Value.fillMembers_eq_lastWins_iff trees).mp ?_⟩
    rwa [hlast htrees] at hfill
  · rintro ⟨trees, htrees, hsettles⟩
    refine ⟨_, (hparse _).mpr ?_, (Value.hasLast_iff _ _ _).mpr rfl⟩
    rw [htrees, hlast htrees]
    exact (Value.fillMembers_eq_lastWins_iff trees).mpr hsettles

end Sese.Json

namespace Sese.Yaml

open Foundation
open Json (Doc Text memberTrees)
open Value (emptied fill lastWins lastWinsMembers HasLast Settles)

variable {δ : Type} [Strtod δ]

theorem mapping_last {text : Bytes} {members : List (Bytes × Value δ)} (h : Presents text (.dict members))
    (hsettles : Settles true (.dict members)) :
    ∃ fuel value, parse fuel text = .ok value ∧ HasLast lastWins members value := by
  obtain ⟨fuel, hparse⟩ := h.parse_eq ((Value.fill_eq_lastWins_iff _).mpr hsettles)
  exact ⟨fuel, _, hparse, (Value.hasLast_lastWins_iff members _).mpr rfl⟩

/-- Of the mappings that can be filled no others are read so. -/
theorem settles_of_mapping_last {text : Bytes} {members : List (Bytes × Value δ)}
    (h : Presents text (.dict members)) (hfills : Settles false (.dict members)) {fuel : ℕ}
    {value : Value δ} (hparse : parse fuel text = .ok value) (hlast : HasLast lastWins members value) :
    Settles true (.dict members) := by
  obtain ⟨filled, hfill⟩ := (Value.exists_fill_iff _).mpr hfills
  obtain ⟨fuel', hparse'⟩ := h.parse_eq hfill
  have hfilled : filled = lastWins (.dict members) := by
    rw [parse_unique hparse' hparse, (Value.hasLast_lastWins_iff members value).mp hlast]
  rw [hfilled] at hfill
  exact (Value.fill_eq_lastWins_iff _).mp hfill

/-- Each key of an object has the last of its values exactly when all numbers of the text have one
and the object settles, and so for a mapping whose containers can go on with those before them. -/
theorem repeated_keys_iff :
    (∀ (members : List (Bytes × Doc)) (before text behind : Bytes), Json.Blank before →
      Text (.object members) text → Json.Blank behind →
      ((∃ value : Value δ, Json.parse (before ++ (text ++ behind)) = .ok value ∧
          HasLast Doc.value members value) ↔
        ∃ trees : List (Bytes × Value δ), memberTrees members = some trees ∧
          Settles true (.dict trees))) ∧
    ∀ (members : List (Bytes × Value δ)) (text : Bytes), Presents text (.dict members) →
      (Settles true (.dict members) →
        ∃ fuel value, parse fuel text = .ok value ∧ HasLast lastWins members value) ∧
      (Settles false (.dict members) → ∀ fuel value, parse fuel text = .ok value →
        HasLast lastWins members value → Settles true (.dict members)) := by
  refine ⟨fun members before text behind hbefore htext hbehind => ?_, fun members text h => ⟨?_, ?_⟩⟩
  · exact Json.object_last_iff hbefore htext hbehind
  · exact mapping_last h
  · intro hfills fuel value hparse hlast
    exact settles_of_mapping_last h hfills hparse hlast

theorem text_digit {b : UInt8} (h : isdigit b) : Text (.number [b]) [b] :=
  .number (Json.Signed.word ⟨List.cons_ne_nil _ _, fun c hc => .inr (by rwa [List.mem_singleton.mp hc])⟩)

theorem escaped_letter : Json.Escaped (bytes "a") := .octet (by decide) (by decide) .nil

theorem repeated_keys_words :
    (∃ value : Value Unit, Json.parse (bytes "\x7b\"a\":1,\"a\":2\x7d") = .ok value ∧
      HasLast Doc.value [(bytes "a", .number (bytes "1")), (bytes "a", .number (bytes "2"))] value) ∧
    ∃ fuel value, parse fuel (bytes "a: 1\na: 2\n") = .ok value ∧
      HasLast lastWins [(bytes "a", .int 1), (bytes "a", .int 2)] (value : Value Unit) := by
  have hsettles : Settles true (.dict [(bytes "a", .int 1), (bytes "a", .int 2)] : Value Unit) :=
    (Value.fillMembers_eq_lastWins_iff _).mp rfl
  constructor
  · have htext : Text (.object [(bytes "a", .number (bytes "1")), (bytes "a", .number (bytes "2"))])
        (bytes "\x7b\"a\":1,\"a\":2\x7d") :=
      .object (.cons Json.blank_nil escaped_letter Json.blank_nil Json.blank_nil (text_digit rfl) Json.blank_nil
        (.last Json.blank_nil escaped_letter Json.blank_nil Json.blank_nil (text_digit rfl) Json.blank_nil))
    exact (repeated_keys_iff.1 _ [] _ [] Json.blank_nil htext Json.blank_nil).mpr ⟨_, rfl, hsettles⟩
  · have hpresents : Presents (bytes "a: 1\na: 2\n")
        (.dict [(bytes "a", .int 1), (bytes "a", .int 2)] : Value Unit) := by
      refine ⟨⟨by decide, fun _ => ⟨by decide, fun _ => trivial⟩⟩, 0, _, _, rfl, ⟨_, _, rfl, by decide⟩,
        .dict (List.cons_ne_nil _ _) ?_⟩
      exact .word (bytes "a") (bytes "1") (.word (bytes "a") (bytes "2") .nil)
    exact (repeated_keys_iff.2 _ _ hpresents).1 hsettles

/-- The second list is appended to the first one. -/
theorem repeated_key_joins :
    Text (.object [(bytes "a", .array [.number (bytes "1")]), (bytes "a", .array [.number (bytes "2")])])
      (bytes "\x7b\"a\":[1],\"a\":[2]\x7d") ∧
    ¬ ∃ value : Value Unit, Json.parse (bytes "\x7b\"a\":[1],\"a\":[2]\x7d") = .ok value ∧
      HasLast Doc.value
        [(bytes "a", .array [.number (bytes "1")]), (bytes "a", .array [.number (bytes "2")])] value := by
  have helement {b : UInt8} (h : isdigit b) : Text (.array [.number [b]]) (91 :: ([b] ++ [93])) :=
    .array (.last Json.blank_nil (text_digit h) Json.blank_nil)
  constructor
  · exact .object (.cons Json.blank_nil escaped_letter Json.blank_nil Json.blank_nil (helement rfl)
      Json.blank_nil (.last Json.blank_nil escaped_letter Json.blank_nil Json.blank_nil (helement rfl)
        Json.blank_nil))
  · have hparse : Json.parse (bytes "\x7b\"a\":[1],\"a\":[2]\x7d") =
        (.ok (.dict [(bytes "a", .list [.int 1, .int 2])]) : Except Fault (Value Unit)) := by rfl
    rintro ⟨value, hvalue, hlast⟩
    rw [hparse] at hvalue
    cases hvalue
    cases (Value.hasLast_iff _ _ _).mp hlast

end Sese.Yaml
