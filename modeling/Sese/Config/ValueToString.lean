import Sese.Config.Value

/-!
# Printing a value

`Value::toString`, for an output that takes everything. A container that is interrupted by another
one stays on the stack with its count, and a dictionary has its iterator on a second stack.
-/
namespace Sese.Value

open Foundation

variable {δ : Type}

/-- `writeSpace`, which reduces the count before it divides it. -/
def writeSpace (count : ℕ) : Bytes :=
  let count := count % 1024
  let times := count / 1024
  List.replicate (times * 1024) 32 ++ List.replicate count 32

/-- What one round of the loop leads to, and what it has written. -/
inductive Printed (δ : Type) where
  | done (out : Bytes)
  | nested (count : ℕ) (child : Value δ) (iters : List (List (Bytes × Value δ))) (out : Bytes)
  | kept (out : Bytes)

def Printed.after (front : Bytes) : Printed δ → Printed δ
  | .done out => .done (front ++ out)
  | .nested count child iters out => .nested count child iters (front ++ out)
  | .kept out => .kept (front ++ out)

/-- What is written in front of an element: `count` is an `unsigned int`, `size` a `size_t`. -/
def lead (opening : UInt8) (count size : ℕ) (level : UInt32) : Bytes :=
  (if count = 0 then [opening, 10] else []) ++
    ((if 0 < count ∧ count < size then [44, 10] else []) ++ writeSpace (level * 2).toNat)

def trail (closing : UInt8) (count size : ℕ) (level : UInt32) : Bytes :=
  if count = size then 10 :: (writeSpace ((level - 1) * 2).toNat ++ [closing]) else []

variable [Double δ]

/-- The loop of `toStringDict`. The iterator is the list of the entries from there on. -/
def toStringMembers (size : ℕ) (level : UInt32) : ℕ → List (Bytes × Value δ) → Printed δ
  | _, [] => .done []
  | count, (name, value) :: iter =>
    let out := lead 123 count size level ++ 34 :: (name ++ [34, 58, 32])
    let count := (count + 1) % 2 ^ 32
    match value with
    | .dict members => .nested count value [members, iter] out
    | .list _ => .nested count value [iter] out
    | _ =>
      (toStringMembers size level count iter).after
        (out ++ (value.toStringBasic ++ trail 125 count size level))

def toStringDict (members : List (Bytes × Value δ)) (count : ℕ) (level : UInt32)
    (iter : List (Bytes × Value δ)) : Printed δ :=
  if members = [] then .done [123, 125]
  else
    (toStringMembers members.length level count iter).after (trail 125 count members.length level)

/-- The loop of `toStringList`. -/
def toStringElements (values : List (Value δ)) (level : UInt32) : ℕ → ℕ → Except Fault (Printed δ)
  | 0, _ => .error .endlessLoop
  | fuel + 1, count =>
    match values[count]? with
    | none => .ok (.done [])
    | some value =>
      let out := lead 91 count values.length level
      let count := (count + 1) % 2 ^ 32
      match value with
      | .dict members => .ok (.nested count value [members] out)
      | .list _ => .ok (.nested count value [] out)
      | _ =>
        (Printed.after (out ++ (value.toStringBasic ++ trail 93 count values.length level))) <$>
          toStringElements values level fuel count

def toStringList (fuel : ℕ) (values : List (Value δ)) (count : ℕ) (level : UInt32) :
    Except Fault (Printed δ) :=
  if values = [] then .ok (.done [91, 93])
  else (Printed.after (trail 93 count values.length level)) <$> toStringElements values level fuel count

/-- One round of the loop of `toString`: what it leads to, and the iterators that stay. -/
def toStringTop (fuel : ℕ) (value : Value δ) (count : ℕ) (level : UInt32)
    (iters : List (List (Bytes × Value δ))) :
    Except Fault (Printed δ × List (List (Bytes × Value δ))) :=
  match value, iters with
  | .dict _, [] => .error .nullPointer
  | .dict members, iter :: iters => .ok (toStringDict members count level iter, iters)
  | .list values, iters => (·, iters) <$> toStringList fuel values count level
  | _, iters => .ok (.kept (writeSpace (level * 2).toNat ++ (value.toStringBasic ++ [10])), iters)

/-- The loop of `toString`, for `rounds` rounds at most: what it has written when the stack is
empty. -/
def toStringLoop (fuel : ℕ) : ℕ → List (Value δ × ℕ × UInt32) → List (List (Bytes × Value δ)) →
    Except Fault Bytes
  | _, [], _ => .ok []
  | 0, _ :: _, _ => .error .endlessLoop
  | rounds + 1, (value, count, level) :: stack, iters => do
    let (printed, iters) ← toStringTop fuel value count level iters
    match printed with
    | .done out => (out ++ ·) <$> toStringLoop fuel rounds stack iters
    | .nested count child news out =>
      (out ++ ·) <$> toStringLoop fuel rounds
        ((child, 0, level + 1) :: (value, count, level) :: stack) (news ++ iters)
    | .kept out => (out ++ ·) <$> toStringLoop fuel rounds ((value, count, level) :: stack) iters

/-- `toString`, for as many rounds of each of its loops as the fuel says. -/
def toString (fuel : ℕ) (value : Value δ) : Except Fault Bytes :=
  toStringLoop fuel fuel [(value, 0, 1)] (match value with | .dict members => [members] | _ => [])

end Sese.Value
