import Mathlib.Data.List.TakeWhile
import Sese.Text.AbstractStringBuffer

/-!
# Splitting a text at a separator

Both functions `split` find the parts of a text between the leftmost separators. The member takes
the last part as it is; the static one reads it as a C string, which is cut at a NUL and otherwise
goes on behind the text.
-/
namespace Sese.Text

open Foundation

variable {text sub : Bytes} {parts : List Bytes}

def kept (parts : List Bytes) : List Bytes :=
  if parts.getLast? = some [] then parts.dropLast else parts

theorem kept_concat (front : List Bytes) (last : Bytes) :
    kept (front ++ [last]) = if last = [] then front else front ++ [last] := by
  rw [kept, List.getLast?_concat, List.dropLast_concat]
  simp

theorem find_eq {pos p : ℕ} (hpos : pos ≤ text.length) (h : first sub (text.drop pos) = some p) :
    find text sub pos = some (pos + p) := by
  rw [find, if_pos hpos, h, Option.map_some]

theorem find_eq_none {pos : ℕ} (hpos : pos ≤ text.length) (h : first sub (text.drop pos) = none) :
    find text sub pos = none := by
  rw [find, if_pos hpos, h, Option.map_none]

/-- From a place behind a separator on, the loop takes all parts but the last one, and stops where
that one begins. -/
theorem partsLoop_eq (hsub : sub ≠ []) {pos1 : ℕ} (hpos : pos1 ≤ text.length)
    (h : Parts sub (text.drop pos1) parts) {fuel : ℕ} (hfuel : text.length - pos1 < fuel)
    (v : List Bytes) :
    ∃ front last start, parts = front ++ [last] ∧ start + last.length = text.length ∧
      text.drop start = last ∧ partsLoop text sub fuel pos1 v = .ok (v ++ front, start) := by
  generalize htail : text.drop pos1 = tail at h
  have hlength := congrArg List.length htail
  rw [List.length_drop] at hlength
  induction h generalizing pos1 fuel v with
  | @last tail hnone =>
    obtain ⟨fuel, rfl⟩ : ∃ k, fuel = k + 1 := ⟨fuel - 1, by omega⟩
    refine ⟨[], tail, pos1, rfl, by omega, htail, ?_⟩
    rw [partsLoop, find_eq_none hpos (by rwa [htail]), List.append_nil]
  | @more tail p parts hfirst hrest ih =>
    have hle := first_le hfirst hsub
    have hseparator := List.length_pos_of_ne_nil hsub
    have hnext : pos1 + p + sub.length ≤ text.length := by omega
    have hdrop : text.drop (pos1 + p + sub.length) = tail.drop (p + sub.length) := by
      rw [← htail, List.drop_drop, Nat.add_assoc]
    obtain ⟨fuel, rfl⟩ : ∃ k, fuel = k + 1 := ⟨fuel - 1, by omega⟩
    obtain ⟨front, last, start, rfl, hstart, hlast, hloop⟩ := @ih _ hnext fuel (by omega)
      (v ++ [tail.take p]) hdrop (by rw [List.length_drop]; omega)
    refine ⟨tail.take p :: front, last, start, rfl, hstart, hlast, ?_⟩
    have hload : load text pos1 (pos1 + p - pos1) = .ok (tail.take p) := by
      rw [Nat.add_sub_cancel_left, load, if_pos (by omega), window, htail]
    rw [partsLoop, find_eq hpos (by rwa [htail])]
    simp only [hload, ok_bind]
    rw [hloop, List.append_assoc, List.singleton_append]

theorem partsLoop_start (hsub : sub ≠ []) (h : Parts sub text parts) :
    ∃ front last start, parts = front ++ [last] ∧ start + last.length = text.length ∧
      text.drop start = last ∧ partsLoop text sub (text.length + 1) 0 [] = .ok (front, start) :=
  partsLoop_eq hsub (Nat.zero_le _) (by rwa [List.drop_zero]) (by omega) []

theorem split_eq (hsub : sub ≠ []) {b : StringBuffer} (hb : b.len ≤ b.cap)
    (h : Parts sub b.text parts) : b.split sub = .ok (kept parts) := by
  have htext : load b.buffer 0 b.len = .ok b.text := by
    rw [load, if_pos (by rwa [Nat.zero_add])]
    rfl
  have hlength : b.text.length = b.len := by
    rw [StringBuffer.text, List.length_take]
    exact Nat.min_eq_left hb
  obtain ⟨front, last, start, rfl, hstart, hlast, hloop⟩ := partsLoop_start hsub h
  rw [kept_concat]
  simp only [StringBuffer.split, htext, ok_bind, hloop]
  by_cases hempty : last = []
  · rw [if_pos hempty, if_neg]
    · rfl
    · rw [hempty, List.length_nil] at hstart
      omega
  · have hpos := List.length_pos_of_ne_nil hempty
    have hload : load b.buffer start (b.len - start) = .ok last := by
      unfold StringBuffer.cap at hb
      rw [load, if_pos (by omega), window, ← hlast, StringBuffer.text, List.drop_take]
    rw [if_neg hempty, if_pos (by omega), hload]
    rfl

/-- A C string without a NUL has no end in the text, and with one it is not the whole part. -/
theorem readCString_ne (s : Bytes) : readCString s ≠ .ok s := by
  intro h
  rw [readCString] at h
  split_ifs at h with hmem
  have hnot : (0 : UInt8) ∉ cstr s := by
    intro h0
    have hne := List.mem_takeWhile_imp h0
    simp at hne
  rw [Except.ok.inj h] at hnot
  exact hnot hmem

theorem splitView_iff (hsub : sub ≠ []) (h : Parts sub text parts) :
    splitView text sub = .ok (kept parts) ↔ parts.getLast? = some [] := by
  obtain ⟨front, last, start, rfl, hstart, hlast, hloop⟩ := partsLoop_start hsub h
  rw [kept_concat, List.getLast?_concat, Option.some_inj]
  simp only [splitView, hloop, ok_bind]
  by_cases hempty : last = []
  · rw [if_neg, if_pos hempty]
    · simpa using hempty
    · rw [hempty, List.length_nil] at hstart
      omega
  · have hpos := List.length_pos_of_ne_nil hempty
    rw [if_pos (by omega), if_neg hempty, hlast]
    simp only [hempty, iff_false]
    intro hread
    obtain ⟨part, hpart, hsame⟩ := bind_eq_ok.mp hread
    have heq := List.append_cancel_left (Except.ok.inj hsame)
    rw [List.cons.injEq] at heq
    rw [heq.1] at hpart
    exact readCString_ne last hpart

/-- Both functions give the parts of the text, without a last one that is empty, and read nothing
behind the text. -/
def BothSplit (text sub : Bytes) : Prop :=
  ∃ parts, Parts sub text parts ∧ splitView text sub = .ok (kept parts) ∧
    ∀ b : StringBuffer, b.len ≤ b.cap → b.text = text → b.split sub = .ok (kept parts)

/-- The static function does so exactly for the texts whose last part is empty. -/
theorem bothSplit_iff (text : Bytes) {sub : Bytes} (hsub : sub ≠ []) :
    BothSplit text sub ↔ ∃ front, Parts sub text (front ++ [[]]) := by
  constructor
  · rintro ⟨parts, hparts, hstatic, -⟩
    have hlast := (splitView_iff hsub hparts).mp hstatic
    obtain ⟨front, rfl⟩ := List.getLast?_eq_some_iff.mp hlast
    exact ⟨front, hparts⟩
  · rintro ⟨front, hparts⟩
    refine ⟨front ++ [[]], hparts, (splitView_iff hsub hparts).mpr List.getLast?_concat, ?_⟩
    rintro b hb rfl
    exact split_eq hsub hb hparts

/-- The text `a;`, with the separator `;`. -/
theorem bothSplit_iff_semicolon :
    BothSplit (bytes "a;") (bytes ";") ↔ ∃ front, Parts (bytes ";") (bytes "a;") (front ++ [[]]) :=
  bothSplit_iff _ (by decide)

/-- The text `a;b`: nothing ends the C string that starts with its last octet. -/
theorem not_bothSplit_semicolon : ¬ BothSplit (bytes "a;b") (bytes ";") := by
  rintro ⟨parts, -, hstatic, -⟩
  have hfault : splitView (bytes "a;b") (bytes ";") = .error .overread := by decide
  rw [hfault] at hstatic
  cases hstatic

end Sese.Text
