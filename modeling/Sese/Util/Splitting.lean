import Sese.Util.Bytes

/-!
# Splitting a text that was put together

The separator is found only where it was put when its first octet is in none of the
pieces. The last piece is lost when it is empty.
-/
namespace Sese

variable {c : UInt8} {sub : Bytes}

theorem forall_octet {P : UInt8 → Prop} (h : ∀ n < 256, P (.ofNat n)) (b : UInt8) : P b := by
  have hb := h b.toNat b.toNat_lt
  rwa [UInt8.ofNat_toNat] at hb

theorem piecesLoop_skip (sep front text : Bytes) (piece : Bytes) :
    piecesLoop sep front.length piece (front ++ text) = piecesLoop sep 0 piece text := by
  induction front with
  | nil => rfl
  | cons b front ih => exact ih

theorem piecesLoop_plain {front : Bytes} (h : c ∉ front) (piece text : Bytes) :
    piecesLoop (c :: sub) 0 piece (front ++ text) =
      piecesLoop (c :: sub) 0 (front.reverse ++ piece) text := by
  induction front generalizing piece with
  | nil => rfl
  | cons b front ih =>
    rw [List.mem_cons, not_or] at h
    have hb : ¬ (c :: sub).isPrefixOf (b :: (front ++ text)) := by
      simp [List.isPrefixOf, h.1]
    rw [List.cons_append, piecesLoop, if_neg hb, ih h.2]
    simp

theorem pieces_append {front : Bytes} (h : c ∉ front) (text : Bytes) :
    pieces (front ++ ((c :: sub) ++ text)) (c :: sub) = front :: pieces text (c :: sub) := by
  have hsub : (c :: sub).isPrefixOf (c :: (sub ++ text)) := by
    simp [List.isPrefixOf]
  rw [pieces, piecesLoop_plain h, List.cons_append, piecesLoop, if_pos hsub]
  simp only [List.append_nil, List.reverse_reverse, List.length_cons, Nat.add_sub_cancel]
  rw [piecesLoop_skip]
  rfl

theorem pieces_nil (sep : Bytes) : pieces [] sep = [] := rfl

theorem pieces_single {piece : Bytes} (h : c ∉ piece) (hne : piece ≠ []) :
    pieces piece (c :: sub) = [piece] := by
  have hloop : piecesLoop (c :: sub) 0 [] (piece ++ []) =
      piecesLoop (c :: sub) 0 (piece.reverse ++ []) [] := piecesLoop_plain h [] []
  rw [List.append_nil, List.append_nil] at hloop
  rw [pieces, hloop, piecesLoop]
  simp [hne]

/-- A text is one piece of itself exactly when the separator is not in it, and it is not
empty. -/
theorem pieces_eq_self_iff {piece : Bytes} : pieces piece [c] = [piece] ↔ piece ≠ [] ∧ c ∉ piece := by
  constructor
  · intro h
    refine ⟨?_, ?_⟩
    · rintro rfl
      cases h
    · intro hc
      obtain ⟨front, rest, rfl, hfront⟩ := List.eq_append_cons_of_mem hc
      have hsplit : pieces (front ++ ([c] ++ rest)) [c] = front :: pieces rest [c] :=
        pieces_append hfront rest
      rw [List.singleton_append, h] at hsplit
      have hlen := congrArg List.length (List.cons.inj hsplit).1
      simp at hlen
  · exact fun h => pieces_single h.2 h.1

theorem mem_intercalate {sep : Bytes} {parts : List Bytes} {b : UInt8}
    (h : b ∈ sep.intercalate parts) : b ∈ sep ∨ ∃ part ∈ parts, b ∈ part := by
  induction parts with
  | nil => cases h
  | cons part parts ih =>
    cases parts with
    | nil =>
      rw [List.intercalate_singleton] at h
      exact .inr ⟨part, List.mem_singleton_self part, h⟩
    | cons part' parts =>
      rw [List.intercalate_cons_cons, List.append_assoc, List.mem_append, List.mem_append] at h
      rcases h with h | h | h
      · exact .inr ⟨part, List.mem_cons_self, h⟩
      · exact .inl h
      · apply (ih h).imp_right
        rintro ⟨p, hp, hb⟩
        exact ⟨p, List.mem_cons_of_mem _ hp, hb⟩

theorem mem_intercalate_of_mem {sep part : Bytes} {parts : List Bytes} {b : UInt8}
    (hpart : part ∈ parts) (hb : b ∈ part) : b ∈ sep.intercalate parts := by
  induction parts with
  | nil => cases hpart
  | cons p parts ih =>
    cases parts with
    | nil =>
      rw [List.intercalate_singleton, ← List.mem_singleton.mp hpart]
      exact hb
    | cons p' parts =>
      rw [List.intercalate_cons_cons]
      rcases List.mem_cons.mp hpart with rfl | hpart
      · exact List.mem_append_left _ (List.mem_append_left _ hb)
      · exact List.mem_append_right _ (ih hpart)

theorem pieces_intercalate {parts : List Bytes} (h : ∀ part ∈ parts, c ∉ part)
    (hlast : parts.getLast? ≠ some []) :
    pieces ((c :: sub).intercalate parts) (c :: sub) = parts := by
  induction parts with
  | nil => rfl
  | cons part parts ih =>
    have hpart := h part List.mem_cons_self
    cases parts with
    | nil =>
      have hne : part ≠ [] := by
        rintro rfl
        exact hlast rfl
      rw [List.intercalate_singleton]
      exact pieces_single hpart hne
    | cons part' parts =>
      rw [List.intercalate_cons_cons, List.append_assoc, pieces_append hpart, ih]
      · exact fun p hp => h p (List.mem_cons_of_mem _ hp)
      · simpa using hlast

theorem not_mem_piecesLoop {piece text : Bytes} (hpiece : c ∉ piece) :
    ∀ p ∈ piecesLoop [c] 0 piece text, c ∉ p := by
  induction text generalizing piece with
  | nil =>
    intro p hp
    rw [piecesLoop] at hp
    split_ifs at hp
    · cases hp
    · rw [List.mem_singleton.mp hp, List.mem_reverse]
      exact hpiece
  | cons b text ih =>
    intro p hp
    rw [piecesLoop] at hp
    split_ifs at hp with hb
    · rcases List.mem_cons.mp hp with rfl | hp
      · rwa [List.mem_reverse]
      · exact ih List.not_mem_nil p hp
    · have hne : b ≠ c := by
        rintro rfl
        simp [List.isPrefixOf] at hb
      exact ih (by simp [hne.symm, hpiece]) p hp

theorem not_mem_pieces {text : Bytes} : ∀ p ∈ pieces text [c], c ∉ p :=
  not_mem_piecesLoop List.not_mem_nil

/-- The pieces of the static `split` are those of the member, or the first part of one. -/
theorem splitLoop_subset (sep : Bytes) (skip : ℕ) (piece text : Bytes) :
    ∀ p ∈ splitLoop sep skip piece text, ∃ q ∈ piecesLoop sep skip piece text, p ⊆ q := by
  induction text generalizing skip piece with
  | nil =>
    intro p hp
    rw [splitLoop] at hp
    rw [piecesLoop]
    split_ifs at hp ⊢
    · cases hp
    · refine ⟨piece.reverse, List.mem_singleton_self _, ?_⟩
      rw [List.mem_singleton.mp hp]
      exact (List.takeWhile_prefix _).subset
  | cons b text ih =>
    intro p hp
    cases skip with
    | succ skip => exact ih skip piece p hp
    | zero =>
      rw [splitLoop] at hp
      rw [piecesLoop]
      split_ifs at hp ⊢
      · rcases List.mem_cons.mp hp with rfl | hp
        · exact ⟨piece.reverse, List.mem_cons_self, List.Subset.refl _⟩
        · obtain ⟨q, hq, hsub⟩ := ih _ [] p hp
          exact ⟨q, List.mem_cons_of_mem _ hq, hsub⟩
      · exact ih 0 (b :: piece) p hp

theorem not_mem_split {text : Bytes} : ∀ p ∈ split text [c], c ∉ p := by
  intro p hp hc
  obtain ⟨q, hq, hsub⟩ := splitLoop_subset [c] 0 [] text p hp
  exact not_mem_pieces q hq (hsub hc)

/-- The pieces are the text, but for a separator at its end. -/
theorem piecesLoop_join (piece text : Bytes) :
    ∃ rest, (rest = [] ∨ rest = [c]) ∧
      piece.reverse ++ text = [c].intercalate (piecesLoop [c] 0 piece text) ++ rest := by
  induction text generalizing piece with
  | nil =>
    refine ⟨[], .inl rfl, ?_⟩
    rw [piecesLoop]
    split_ifs with h
    · rw [List.isEmpty_iff.mp h]
      rfl
    · rw [List.intercalate_singleton]
  | cons b text ih =>
    rw [piecesLoop]
    split_ifs with hb
    · obtain rfl : c = b := by simpa [List.isPrefixOf] using hb
      obtain ⟨rest, hrest, htext⟩ := ih []
      rw [List.reverse_nil, List.nil_append] at htext
      rw [List.length_singleton, Nat.sub_self]
      cases hpieces : piecesLoop [c] 0 [] text with
      | nil =>
        rw [hpieces] at htext
        rcases hrest with rfl | rfl
        · exact ⟨[c], .inr rfl, by simp [htext]⟩
        · -- a separator alone is a piece
          rw [htext] at hpieces
          simp [piecesLoop, List.isPrefixOf, List.intercalate] at hpieces
      | cons p ps =>
        rw [hpieces] at htext
        refine ⟨rest, hrest, ?_⟩
        rw [List.intercalate_cons_cons, htext]
        simp
    · obtain ⟨rest, hrest, htext⟩ := ih (b :: piece)
      exact ⟨rest, hrest, by rw [← htext]; simp⟩

theorem pieces_join (c : UInt8) (text : Bytes) :
    ∃ rest, (rest = [] ∨ rest = [c]) ∧ text = [c].intercalate (pieces text [c]) ++ rest :=
  piecesLoop_join [] text

theorem findIdx?_octet {front : Bytes} (h : c ∉ front) (rest : Bytes) :
    (front ++ c :: rest).findIdx? (fun b => b = c) = some front.length := by
  rw [List.findIdx?_append, List.findIdx?_eq_none_iff.mpr]
  · simp [List.findIdx?_cons]
  · intro b hb
    have hbc : b ≠ c := by
      rintro rfl
      exact h hb
    simpa using hbc

theorem findIdx?_octet_none {text : Bytes} (h : c ∉ text) : text.findIdx? (fun b => b = c) = none := by
  rw [List.findIdx?_eq_none_iff]
  intro b hb
  have hbc : b ≠ c := by
    rintro rfl
    exact h hb
  simpa using hbc

theorem splitLoop_eq {sep : Bytes} (text : Bytes) (skip : ℕ) (piece : Bytes)
    (htext : (0 : UInt8) ∉ text) (hpiece : (0 : UInt8) ∉ piece) :
    splitLoop sep skip piece text = piecesLoop sep skip piece text := by
  induction text generalizing skip piece with
  | nil =>
    rw [splitLoop, piecesLoop, cstr_eq_self]
    rwa [List.mem_reverse]
  | cons b text ih =>
    rw [List.mem_cons, not_or] at htext
    cases skip with
    | succ skip =>
      rw [splitLoop, piecesLoop]
      exact ih skip piece htext.2 hpiece
    | zero =>
      rw [splitLoop, piecesLoop, ih _ _ htext.2 (by simp), ih 0 (b :: piece) htext.2 (by simp [htext.1, hpiece])]

/-- The static `split` and the member give the same pieces. -/
theorem split_eq_pieces {text : Bytes} (h : (0 : UInt8) ∉ text) (sep : Bytes) :
    split text sep = pieces text sep :=
  splitLoop_eq text 0 [] h (by simp)

end Sese
