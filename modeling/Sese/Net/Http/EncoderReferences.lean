import Sese.Net.Http.HPackRoundTrip
import Sese.Net.Http.TableHistory

/-!
# References of the encoder

`HPackUtil::encode` names an entry of the dynamic table by its index. The loop over `indexed_header`
counts from the newest entry, as `DynamicTable::get` does. The loop over `once_header` counts from the
oldest one, so it names the entry that stands as far from the other end.
-/
namespace Sese.Net.Http
namespace HPackUtil

open Foundation

/-- The representation of a header field: which of the four, the index, and the strings. `matched` is
the entry of the dynamic table that was found for it. -/
structure Emission where
  item : Bytes × Bytes
  field : IntegerField
  index : ℕ
  strings : List Bytes
  matched : Option (Bytes × Bytes) := none

def Emission.octets (e : Emission) : Bytes :=
  e.field.encode e.index ++ e.strings.flatMap encodeString

/-- Where the search loops stop, and whether the value is the same as well. -/
def found (item : Bytes × Bytes) (entries : List (Bytes × Bytes)) : Option (ℕ × Bool) :=
  match lookup item.1 item.2 entries 0 none with
  | (_, some i) => some (i, true)
  | (some i, none) => some (i, false)
  | (none, none) => none

/-- Both loops, with the literals that they use and the index that they give to position `i`. -/
def emit (named unnamed : IntegerField) (indexOf : ℕ → ℕ) (table : DynamicTable)
    (item : Bytes × Bytes) : Emission :=
  match found item table.queue with
  | some (i, true) => ⟨item, .case0, indexOf i, [], table.queue[i]?⟩
  | some (i, false) => ⟨item, named, indexOf i, [item.2], table.queue[i]?⟩
  | none =>
    match found item predefinedHeaders with
    | some (i, true) => ⟨item, .case0, i, [], none⟩
    | some (i, false) => ⟨item, named, i, [item.2], none⟩
    | none => ⟨item, unnamed, 0, [item.1, item.2], none⟩

def emitIndexed (table : DynamicTable) : Bytes × Bytes → Emission :=
  emit .case1 .case1 (dynamicIndex table) table

def emitOnce (table : DynamicTable) : Bytes × Bytes → Emission :=
  emit .case2 .case3 (· + 62) table

/-- The representations of `indexed_header`, and the table behind them. -/
def emitFields : DynamicTable → List (Bytes × Bytes) → Except Fault (List Emission × DynamicTable)
  | table, [] => .ok ([], table)
  | table, item :: items => do
    let next ← tableAfter table item
    let (rest, table') ← emitFields next items
    return (emitIndexed table item :: rest, table')

/-- The representations of both headers, without the cookies. -/
def emissions (table : DynamicTable) (onceHeader indexedHeader : Header) :
    Except Fault (List Emission) := do
  let (es, table) ← emitFields table indexedHeader.headers.entries
  return es ++ onceHeader.headers.entries.map (emitOnce table)

variable {table table' : DynamicTable} {item : Bytes × Bytes}

theorem encodeOnce_eq (table : DynamicTable) (item : Bytes × Bytes) :
    encodeOnce table item = (emitOnce table item).octets := by
  unfold encodeOnce emitOnce emit found
  rcases lookup item.1 item.2 table.queue 0 none with ⟨_ | i, _ | j⟩
  case none.none =>
    rcases lookup item.1 item.2 predefinedHeaders 0 none with ⟨_ | i, _ | j⟩ <;>
      simp [Emission.octets, IntegerField.encode]
  all_goals simp [Emission.octets, IntegerField.encode]

theorem encodeIndexed_eq (table : DynamicTable) (item : Bytes × Bytes) :
    encodeIndexed table item = do
      let next ← tableAfter table item
      return ((emitIndexed table item).octets, next) := by
  unfold encodeIndexed tableAfter isStored emitIndexed emit found
  rcases table.set item.1 item.2 with _ | r <;>
    rcases lookup item.1 item.2 table.queue 0 none with ⟨_ | i, _ | j⟩
  case error.none.none | ok.none.none =>
    rcases lookup item.1 item.2 predefinedHeaders 0 none with ⟨_ | i, _ | j⟩ <;>
      simp [Emission.octets, IntegerField.encode]
  all_goals simp [Emission.octets, IntegerField.encode]

theorem encodeFields_eq (table : DynamicTable) (items : List (Bytes × Bytes)) :
    encodeFields table items = do
      let (es, table') ← emitFields table items
      return (es.flatMap Emission.octets, table') := by
  induction items generalizing table with
  | nil => simp [encodeFields, emitFields]
  | cons item items ih =>
    simp only [encodeFields, emitFields, encodeIndexed_eq, ih]
    cases htable : tableAfter table item with
    | error fault => simp
    | ok next =>
      cases hrest : emitFields next items with
      | error fault => simp [hrest]
      | ok r => simp [hrest]

theorem tableAfterBlock_eq (table : DynamicTable) (items : List (Bytes × Bytes)) :
    tableAfterBlock table items = Prod.snd <$> emitFields table items := by
  induction items generalizing table with
  | nil => simp [tableAfterBlock, emitFields]
  | cons item items ih =>
    have htail : ∀ t, List.foldlM tableAfter t items = Prod.snd <$> emitFields t items := ih
    simp only [tableAfterBlock, List.foldlM_cons, emitFields, htail]
    cases hnext : tableAfter table item with
    | error fault => simp
    | ok next =>
      cases hrest : emitFields next items with
      | error fault => simp [hrest]
      | ok r => simp [hrest]

/-- What `encode` writes are the representations, and the cookies behind them. -/
theorem encode_eq_emissions (formatExpires : ℕ → Bytes) {once indexed : Header} {out : Bytes}
    (h : encode formatExpires table once indexed = .ok (out, table')) :
    ∃ es, emissions table once indexed = .ok es ∧
      tableAfterBlock table indexed.headers.entries = .ok table' ∧
      out = es.flatMap Emission.octets ++ encodeCookies formatExpires once.cookies ++
        encodeCookies formatExpires indexed.cookies := by
  obtain ⟨⟨written, last⟩, hfields, h⟩ := bind_eq_ok.mp h
  rw [encodeFields_eq] at hfields
  obtain ⟨⟨es, last'⟩, hemitted, hfields⟩ := bind_eq_ok.mp hfields
  cases hfields
  cases h
  refine ⟨es ++ once.headers.entries.map (emitOnce table'), by simp [emissions, hemitted],
    by simp [tableAfterBlock_eq, hemitted], ?_⟩
  have honce : encodeOnce table' = fun item => (emitOnce table' item).octets :=
    funext (encodeOnce_eq table')
  simp [List.flatMap_append, List.flatMap_map, honce]

/-- The name of a literal is that of the entry with its index, or comes with it. -/
def Emission.name (d : DynamicTable) (e : Emission) : Option Bytes :=
  if e.index = 0 then some e.item.1 else (d.get e.index).map Prod.fst

/-- The table of the decoder behind a representation. A literal with incremental indexing adds its
field. -/
def Emission.received (d : DynamicTable) (e : Emission) : Option DynamicTable :=
  if e.field = .case1 then
    (e.name d).bind fun name => (d.set name e.item.2).toOption.map Prod.fst
  else some d

/-- The index leads to the entry that was found, if there was one. -/
def Emission.Leads (d : DynamicTable) (e : Emission) : Prop :=
  ∀ entry, e.matched = some entry → d.get e.index = some entry

/-- One representation after the other leads where it should, each in the table that the decoder has
when it comes to it. -/
def Resolve : DynamicTable → List Emission → Prop
  | _, [] => True
  | d, e :: es => e.Leads d ∧ ∃ d', e.received d = some d' ∧ Resolve d' es

theorem found_spec {entries : List (Bytes × Bytes)} {p : ℕ} {same : Bool}
    (h : found item entries = some (p, same)) : ∃ v, entries[p]? = some (item.1, v) := by
  unfold found at h
  split at h
  · rename_i i hlookup
    cases h
    exact ⟨item.2, lookup_exact hlookup⟩
  · rename_i i hlookup
    cases h
    exact lookup_name hlookup
  · cases h

theorem emit_found {named unnamed : IntegerField} {indexOf : ℕ → ℕ} {p : ℕ} {same : Bool}
    (h : found item table.queue = some (p, same)) :
    (emit named unnamed indexOf table item).index = indexOf p ∧
      (emit named unnamed indexOf table item).matched = table.queue[p]? := by
  unfold emit
  rw [h]
  cases same <;> simp

theorem emit_not_found {named unnamed : IntegerField} {indexOf : ℕ → ℕ}
    (h : found item table.queue = none) :
    (emit named unnamed indexOf table item).matched = none := by
  unfold emit
  rw [h]
  rcases found item predefinedHeaders with _ | ⟨i, _ | _⟩ <;> simp

/-- The index of the first loop is that of `get`. -/
theorem emitIndexed_leads (table : DynamicTable) (item : Bytes × Bytes) :
    (emitIndexed table item).Leads table := by
  intro entry hmatched
  cases hfound : found item table.queue with
  | none =>
    have hnone : (emitIndexed table item).matched = none := emit_not_found hfound
    simp [hnone] at hmatched
  | some place =>
    have hemitted : (emitIndexed table item).index = dynamicIndex table place.1 ∧
        (emitIndexed table item).matched = table.queue[place.1]? := emit_found hfound
    rw [hemitted.1]
    rw [hemitted.2] at hmatched
    exact table.get_queue hmatched

theorem received_literal {e : Emission} {next : DynamicTable} (hfield : e.field = .case1)
    (hitem : e.item = item) (hname : e.index ≠ 0 → ∃ v, table.get e.index = some (item.1, v))
    (hset : Prod.fst <$> table.set item.1 item.2 = .ok next) : e.received table = some next := by
  have hkey : e.name table = some item.1 := by
    unfold Emission.name
    split_ifs with hindex
    · rw [hitem]
    · obtain ⟨v, hv⟩ := hname hindex
      simp [hv]
  unfold Emission.received
  rw [if_pos hfield, hkey, hitem, Option.bind_some]
  cases hr : table.set item.1 item.2 with
  | error fault => simp [hr] at hset
  | ok r =>
    rw [hr] at hset
    cases hset
    simp [Except.toOption]

theorem received_emitIndexed {next : DynamicTable} (h : tableAfter table item = .ok next) :
    (emitIndexed table item).received table = some next := by
  unfold tableAfter isStored at h
  unfold emitIndexed emit found
  rcases hdynamic : lookup item.1 item.2 table.queue 0 none with ⟨name, _ | j⟩ <;>
    simp only [hdynamic] at h ⊢
  · cases name with
    | some i =>
      refine received_literal rfl rfl (fun _ => ?_) h
      obtain ⟨v, hv⟩ := lookup_name hdynamic
      exact ⟨v, table.get_queue hv⟩
    | none =>
      rcases hstatic : lookup item.1 item.2 predefinedHeaders 0 none with ⟨name, _ | j⟩ <;>
        simp only [hstatic] at h ⊢
      · cases name with
        | some i =>
          refine received_literal rfl rfl (fun hi => ?_) h
          obtain ⟨v, hv⟩ := lookup_name hstatic
          exact ⟨v, table.get_predefined hi hv⟩
        | none => exact received_literal rfl rfl (fun hi => absurd rfl hi) h
      · cases h
        simp [Emission.received]
  · cases h
    simp [Emission.received]

theorem resolve_emitFields {items : List (Bytes × Bytes)} {es : List Emission}
    (h : emitFields table items = .ok (es, table')) (rest : List Emission) :
    Resolve table (es ++ rest) ↔ Resolve table' rest := by
  induction items generalizing table es with
  | nil =>
    cases h
    simp
  | cons item items ih =>
    obtain ⟨next, hnext, h⟩ := bind_eq_ok.mp h
    obtain ⟨⟨es', last⟩, hrest, h⟩ := bind_eq_ok.mp h
    cases h
    simp [Resolve, emitIndexed_leads, received_emitIndexed hnext, ih hrest]

/-- The field is not in the dynamic table, or the entry that is found is the same when it is counted
from the other end. -/
def Mirrored (table : DynamicTable) (item : Bytes × Bytes) : Prop :=
  ∀ p same, found item table.queue = some (p, same) → table.queue.reverse[p]? = table.queue[p]?

theorem emitOnce_leads_iff (table : DynamicTable) (item : Bytes × Bytes) :
    (emitOnce table item).Leads table ↔ Mirrored table item := by
  unfold Emission.Leads Mirrored
  cases hfound : found item table.queue with
  | none =>
    have hnone : (emitOnce table item).matched = none := emit_not_found hfound
    simp [hnone]
  | some place =>
    obtain ⟨p, same⟩ := place
    have hemitted : (emitOnce table item).index = p + 62 ∧
        (emitOnce table item).matched = table.queue[p]? := emit_found hfound
    obtain ⟨v, hv⟩ := found_spec hfound
    simp [hemitted.1, hemitted.2, Nat.add_comm p, DynamicTable.get_dynamic, hv]

theorem received_emitOnce (table : DynamicTable) (item : Bytes × Bytes) :
    (emitOnce table item).received table = some table := by
  have hfield : (emitOnce table item).field ≠ .case1 := by
    unfold emitOnce emit
    rcases found item table.queue with _ | ⟨i, _ | _⟩
    · rcases found item predefinedHeaders with _ | ⟨i, _ | _⟩ <;> simp
    · simp
    · simp
  simp [Emission.received, hfield]

theorem resolve_once_iff (table : DynamicTable) (items : List (Bytes × Bytes)) :
    Resolve table (items.map (emitOnce table)) ↔ ∀ item ∈ items, Mirrored table item := by
  induction items with
  | nil => simp [Resolve]
  | cons item items ih => simp [Resolve, emitOnce_leads_iff, received_emitOnce, ih]

/-- Every reference to the dynamic table that `encode` makes leads the decoder, in the table that it
has then, to the entry that was found. -/
def ReferencesResolve (table : DynamicTable) (once indexed : Header) : Prop :=
  ∀ es, emissions table once indexed = .ok es → Resolve table es

/-- The first loop never goes wrong. The second is right about the fields whose entry stands as far
from the one end as an equal entry from the other. -/
theorem referencesResolve_iff (table : DynamicTable) (once indexed : Header) :
    ReferencesResolve table once indexed ↔
      ∀ next, tableAfterBlock table indexed.headers.entries = .ok next →
        ∀ item ∈ once.headers.entries, Mirrored next item := by
  unfold ReferencesResolve emissions
  rw [tableAfterBlock_eq]
  cases hemitted : emitFields table indexed.headers.entries with
  | error fault => simp
  | ok r =>
    obtain ⟨es, last⟩ := r
    simp [resolve_emitFields hemitted, resolve_once_iff]

/-- A table with two entries, the older of which is found for the field. -/
theorem once_reference_lost :
    ¬ReferencesResolve { size := 12, queue := [(bytes "a", bytes "x"), (bytes "b", bytes "y")] }
      (headerOf [("a", "x")]) {} := by
  intro h
  have hleads := h [emitOnce { size := 12, queue := [(bytes "a", bytes "x"), (bytes "b", bytes "y")] }
    (bytes "a", bytes "x")] (by rfl)
  have hget := hleads.1 (bytes "a", bytes "x") (by decide)
  revert hget
  decide

end HPackUtil
end Sese.Net.Http
