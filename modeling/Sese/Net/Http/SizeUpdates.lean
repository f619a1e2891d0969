import Sese.Foundation.Outcome
import Sese.Net.Http.HPackUtil

/-!
# Dynamic table size updates

`sizeUpdates` lists the size updates that a call of `HPackUtil::decode` applies. The
maximum of the table after the call is the last of them; encoding a header block
leaves the maximum alone.
-/
namespace Sese.Net.Http.HPackUtil

open Foundation

/-- The size update that a round of `decode` applies. -/
def fieldUpdate (limit : ℕ) (s : DecodeState) : Option ℕ :=
  match s.src with
  | [] => none
  | buf :: src =>
    if buf &&& 0x80 = 0 ∧ buf &&& 0xE0 = 0x20 then
      match decodeInteger buf src 5 with
      | .ok (some (newSize, _, _)) => if newSize > limit then none else some newSize
      | _ => none
    else none

/-- The size updates that the loop of `decode` applies. -/
def sizeUpdates (indet : ℕ → UInt8) (contentLength limit : ℕ) : ℕ → DecodeState → List ℕ
  | 0, _ => []
  | rounds + 1, s =>
    if s.len < contentLength then
      match decodeField indet limit s with
      | .ok (code, s') => (fieldUpdate limit s).toList ++
          if code ≠ 0 then [] else sizeUpdates indet contentLength limit rounds s'
      | .error _ => []
    else []

variable {indet : ℕ → UInt8} {limit : ℕ} {s s' : DecodeState} {code : ℕ}

theorem fieldUpdate_le {n : ℕ} (h : fieldUpdate limit s = some n) : n ≤ limit := by
  unfold fieldUpdate at h
  split at h
  · cases h
  · split_ifs at h
    split at h
    · split_ifs at h
      cases h
      omega
    · cases h

theorem storeField_table (s : DecodeState) (key value : Bytes) :
    (storeField s key value).2.table = s.table := by
  unfold storeField
  split_ifs <;> rfl

theorem set_max {t : DynamicTable} {key value : Bytes} {r : DynamicTable × Bool}
    (h : t.set key value = .ok r) : r.1.max = t.max := by
  unfold DynamicTable.set at h
  dsimp only at h
  split_ifs at h
  · cases h
    rfl
  · cases h
    rfl
  · obtain ⟨e, -, h⟩ := bind_eq_ok.mp h
    cases h
    rfl

theorem resize_max {t t' : DynamicTable} {max : ℕ} (h : t.resize max = .ok t') : t'.max = max := by
  unfold DynamicTable.resize at h
  obtain ⟨e, -, h⟩ := bind_eq_ok.mp h
  cases h
  rfl

theorem decodeIndexed_table {buf : UInt8} (h : decodeIndexed buf s = .ok (code, s')) :
    s'.table = s.table := by
  unfold decodeIndexed at h
  obtain ⟨p, -, h⟩ := bind_eq_ok.mp h
  cases p with
  | none =>
    cases h
    rfl
  | some p =>
    obtain ⟨index, l, src⟩ := p
    dsimp only at h
    split_ifs at h
    · cases h
      rfl
    · split at h
      · cases h
        rfl
      · rename_i pair _
        simp only [pure_eq_ok, Except.ok.injEq] at h
        have htable := storeField_table { s with src := src, len := s.len + l } pair.1 pair.2
        rw [h] at htable
        exact htable

theorem readString_table {r : Option Bytes × DecodeState} (h : readString indet s = .ok r) :
    r.2.table = s.table := by
  unfold readString at h
  obtain ⟨p, -, h⟩ := bind_eq_ok.mp h
  split at h <;> cases h <;> rfl

theorem readKey_table {index : ℕ} {r : Option Bytes × DecodeState}
    (h : readKey indet index s = .ok r) : r.2.table = s.table := by
  unfold readKey at h
  split_ifs at h
  · cases h
    rfl
  · exact readString_table h

theorem decodeLiteral_max {n : ℕ} {isStore : Bool} {buf : UInt8}
    (h : decodeLiteral indet n isStore buf s = .ok (code, s')) : s'.table.max = s.table.max := by
  unfold decodeLiteral at h
  obtain ⟨p, -, h⟩ := bind_eq_ok.mp h
  split at h
  · cases h
    rfl
  obtain ⟨⟨key, s₁⟩, hkey, h⟩ := bind_eq_ok.mp h
  have hfirst : s₁.table = s.table := readKey_table hkey
  cases key with
  | none =>
    cases h
    rw [hfirst]
  | some key =>
    obtain ⟨⟨value, s₂⟩, hvalue, h⟩ := bind_eq_ok.mp h
    have hsecond : s₂.table = s₁.table := readString_table hvalue
    cases value with
    | none =>
      cases h
      rw [hsecond, hfirst]
    | some value =>
      dsimp only at h
      split_ifs at h
      · obtain ⟨r, hset, h⟩ := bind_eq_ok.mp h
        simp only [pure_eq_ok, Except.ok.injEq] at h
        have htable := storeField_table { s₂ with table := r.1 } key value
        rw [h] at htable
        rw [htable, set_max hset, hsecond, hfirst]
      · simp only [pure_eq_ok, Except.ok.injEq] at h
        have htable := storeField_table s₂ key value
        rw [h] at htable
        rw [htable, hsecond, hfirst]

theorem decodeField_max (h : decodeField indet limit s = .ok (code, s')) :
    s'.table.max = (fieldUpdate limit s).getD s.table.max := by
  unfold decodeField at h
  unfold fieldUpdate
  cases hsrc : s.src with
  | nil =>
    rw [hsrc] at h
    cases h
    rfl
  | cons buf src =>
    rw [hsrc] at h
    dsimp only at h ⊢
    by_cases hindexed : buf &&& 0x80 = 0
    · simp only [hindexed, ne_eq, not_true_eq_false, if_false, true_and] at h ⊢
      by_cases hupdate : buf &&& 0xE0 = 0x20
      · rw [if_pos hupdate] at h ⊢
        unfold decodeSizeUpdate at h
        obtain ⟨p, hp, h⟩ := bind_eq_ok.mp h
        dsimp only at hp
        rw [hp]
        split at h
        · cases h
          rfl
        · dsimp only at h ⊢
          split_ifs at h ⊢ with hlimit
          · cases h
            rfl
          · obtain ⟨t, hresize, h⟩ := bind_eq_ok.mp h
            cases h
            exact resize_max hresize
      · rw [if_neg hupdate] at h ⊢
        split_ifs at h
        · have hmax := decodeLiteral_max h
          exact hmax
        · have hmax := decodeLiteral_max h
          exact hmax
    · simp only [hindexed, ne_eq, not_false_eq_true, if_true, false_and, if_false] at h ⊢
      rw [decodeIndexed_table h]
      rfl

/-- The last size update of a header block is the size of the table afterwards. -/
theorem decodeFields_max {contentLength rounds : ℕ}
    (h : decodeFields indet contentLength limit rounds s = .ok (code, s')) :
    s'.table.max =
      ((sizeUpdates indet contentLength limit rounds s).getLast?).getD s.table.max := by
  induction rounds generalizing s with
  | zero =>
    cases h
    rfl
  | succ rounds ih =>
    unfold decodeFields at h
    unfold sizeUpdates
    split_ifs at h ⊢ with hlen
    · obtain ⟨⟨code₁, s₁⟩, hfield, h⟩ := bind_eq_ok.mp h
      have hmax := decodeField_max hfield
      rw [hfield]
      dsimp only at h ⊢
      split_ifs at h ⊢ with hcode
      · cases h
        rw [hmax]
        cases fieldUpdate limit s <;> rfl
      · rw [ih h, hmax, List.getLast?_append]
        cases fieldUpdate limit s with
        | none => simp
        | some n =>
          cases (sizeUpdates indet contentLength limit rounds s₁).getLast? <;> rfl
    · cases h
      rfl

/-- A size update that is applied is within the limit. -/
theorem sizeUpdates_le {contentLength rounds n : ℕ}
    (h : n ∈ sizeUpdates indet contentLength limit rounds s) : n ≤ limit := by
  induction rounds generalizing s with
  | zero => cases h
  | succ rounds ih =>
    unfold sizeUpdates at h
    split_ifs at h
    · split at h
      · rcases List.mem_append.mp h with hfirst | hrest
        · exact fieldUpdate_le (Option.mem_toList.mp hfirst)
        · split_ifs at hrest
          · cases hrest
          · exact ih hrest
      · cases h
    · cases h

theorem decode_max {src : Bytes} {contentLength : ℕ} {table : DynamicTable} {header : Header}
    {isResp hasPseudo : Bool}
    (h : decode indet src contentLength table header isResp hasPseudo limit = .ok (code, s')) :
    s'.table.max = ((sizeUpdates indet contentLength limit contentLength
      { src := src, table := table, header := header, hasPseudo := hasPseudo }).getLast?).getD
        table.max := by
  unfold decode at h
  obtain ⟨⟨code₁, s₁⟩, hfields, h⟩ := bind_eq_ok.mp h
  have hmax := decodeFields_max hfields
  dsimp only at h
  split_ifs at h
  · cases h
    exact hmax
  · cases h
    exact hmax
  · cases h
    exact hmax

theorem encodeIndexed_max {table : DynamicTable} {item : Bytes × Bytes} {r : Bytes × DynamicTable}
    (h : encodeIndexed table item = .ok r) : r.2.max = table.max := by
  unfold encodeIndexed at h
  split at h
  · cases h
    rfl
  · obtain ⟨e, hset, h⟩ := bind_eq_ok.mp h
    cases h
    exact set_max hset
  · split at h
    · cases h
      rfl
    · obtain ⟨e, hset, h⟩ := bind_eq_ok.mp h
      cases h
      exact set_max hset
    · obtain ⟨e, hset, h⟩ := bind_eq_ok.mp h
      cases h
      exact set_max hset

theorem encodeFields_max {table : DynamicTable} {items : List (Bytes × Bytes)}
    {r : Bytes × DynamicTable} (h : encodeFields table items = .ok r) : r.2.max = table.max := by
  induction items generalizing table r with
  | nil =>
    cases h
    rfl
  | cons item items ih =>
    obtain ⟨e, hitem, h⟩ := bind_eq_ok.mp h
    obtain ⟨e', hitems, h⟩ := bind_eq_ok.mp h
    cases h
    exact (ih hitems).trans (encodeIndexed_max hitem)

theorem encode_max {formatExpires : ℕ → Bytes} {table : DynamicTable} {once indexed : Header}
    {r : Bytes × DynamicTable} (h : encode formatExpires table once indexed = .ok r) :
    r.2.max = table.max := by
  unfold encode at h
  obtain ⟨e, hfields, h⟩ := bind_eq_ok.mp h
  have hmax := encodeFields_max hfields
  cases h
  exact hmax

end Sese.Net.Http.HPackUtil
