import Sese.Foundation.Occurrences
import Sese.Foundation.Rounds
import Sese.Text.Conversions

/-!
# Searching in a text

`BM`, once for octets and once for code points, `KMP` and `NORMAL`. An array of `char` is what can
be read from its address on, so that its text is the C string in it.
-/
namespace Sese.Text

open Foundation

theorem cstr_terminated {s : Bytes} (h : (0 : UInt8) ∉ s) : cstr (s ++ [0]) = s := by
  induction s with
  | nil => rfl
  | cons b s ih =>
    have hb : b ≠ 0 := fun h0 => h (by rw [h0]; exact List.mem_cons_self)
    have hs := ih fun h' => h (List.mem_cons_of_mem b h')
    unfold cstr at hs ⊢
    rw [List.cons_append, List.takeWhile_cons_of_pos (by simpa using hb), hs]

section Distance

variable {α : Type} [DecidableEq α]

/-- The loop of `dist`, from `i` down to the first letter. -/
def distLoop (t : List α) (ch : α) : ℕ → ℤ → Except Fault ℤ
  | 0, _ => .error .endlessLoop
  | fuel + 1, i =>
    if 0 ≤ i then do
      let c ← readAt t i
      if ch = c then return toInt t.length - 1 - i
      else distLoop t ch fuel (i - 1)
    else return toInt t.length

/-- How far the search moves on because of the letter `ch`. -/
def dist (t : List α) (ch : α) : Except Fault ℤ := do
  let i ← checkInt (toInt t.length - 1)
  let c ← readAt t i
  if ch = c then return toInt t.length
  else
    let i ← checkInt (i - 1)
    distLoop t ch (t.length + 1) i

/-- A round of the loop of `BM`, with the indices in the text and in the pattern. The comparison of
`i` with the size converts it. -/
def searchRound (str : List α) (n : ℕ) (sub : List α) (s : ℤ × ℤ) :
    Except Fault ((ℤ × ℤ) ⊕ ℤ) := do
  if 0 ≤ s.2 ∧ toSize s.1 < n then
    let ch ← readAt str s.1
    let c ← readAt sub s.2
    if ch = c then
      let i ← checkInt (s.1 - 1)
      let j ← checkInt (s.2 - 1)
      return .inl (i, j)
    else
      let d ← dist sub ch
      let i ← checkInt (s.1 + d)
      let j ← checkInt (toInt sub.length - 1)
      return .inl (i, j)
  else if s.2 < 0 then
    let i ← checkInt (s.1 + 1)
    return .inr i
  else return .inr (-1)

def search (fuel : ℕ) (str : List α) (n : ℕ) (sub : List α) : Except Fault ℤ := do
  let i ← checkInt (toInt sub.length - 1)
  iterate .endlessLoop (searchRound str n sub) fuel (i, i)

end Distance

/-- `BM` of two C strings, with at most so many rounds. -/
def BM (fuel : ℕ) (str sub : Bytes) : Except Fault ℤ := search fuel str (cstr str).length (cstr sub)

/-- `BM` of the first code points of an array. -/
def BMChars (fuel : ℕ) (str : List ℕ) (size : ℕ) (sub : List ℕ) : Except Fault ℤ :=
  search fuel str size sub

/-- The inner loop of `getNext` and of `KMP`: as long as another letter than `ch` stands at `k`, an
entry of the table takes its place. -/
def fallBack (next : List ℤ) (str : Bytes) (ch : UInt8) : ℕ → ℤ → Except Fault ℤ
  | 0, _ => .error .endlessLoop
  | fuel + 1, k =>
    if 0 < k then do
      let c ← readAt str k
      if ch = c then return k
      else
        let k ← readAt next (k - 1)
        fallBack next str ch fuel k
    else return k

/-- What both loops do with a letter: they fall back and count it, if it is the one that stands
there. -/
def advance (next : List ℤ) (str : Bytes) (ch : UInt8) (k : ℤ) : Except Fault ℤ := do
  let k ← fallBack next str ch (next.length + 1) k
  let c ← readAt str k
  if ch = c then checkInt (k + 1) else return k

/-- The loop of `getNext`; `togo` is the number of letters that are left. -/
def nextLoop (str : Bytes) : ℕ → ℤ → List ℤ → Except Fault (List ℤ)
  | 0, _, next => .ok next
  | togo + 1, i, next => do
    let k ← readAt next (i - 1)
    let ch ← readAt str i
    let k ← advance next str ch k
    let next := next.set i.toNat k
    let i ← checkInt (i + 1)
    nextLoop str togo i next

/-- The table of `KMP`. -/
def getNext (str : Bytes) : Except Fault (List ℤ) :=
  let len := (cstr str).length
  nextLoop str (len - 1) 1 (List.replicate len 0)

/-- The loop of `KMP`; `togo` is the number of letters that are left. -/
def scanLoop (next : List ℤ) (str sub : Bytes) : ℕ → ℤ → ℤ → ℤ → Except Fault ℤ
  | 0, _, _, res => .ok res
  | togo + 1, i, k, res => do
    let ch ← readAt str i
    let k ← advance next sub ch k
    if k = toInt (cstr sub).length then
      let res ← checkInt (i - k + 1)
      let k ← readAt next (k - 1)
      let i ← checkInt (i + 1)
      scanLoop next str sub togo i k res
    else
      let i ← checkInt (i + 1)
      scanLoop next str sub togo i k res

def KMP (str sub : Bytes) : Except Fault ℤ := do
  let next ← getNext str
  scanLoop next str sub (toInt (cstr str).length).toNat 0 0 (-1)

/-- `strstr`, as an index. -/
def NORMAL (str sub : Bytes) : ℤ :=
  match first (cstr sub) (cstr str) with
  | some p => toInt p
  | none => -1

end Sese.Text
