import Sese.Config.Json
import Sese.Foundation.Rounds

/-!
# YAML

`Yaml::parse` and `Yaml::streamify`, for an input that is the list of its octets and an output
that takes everything. Each loop runs for a number of rounds at most; `endlessLoop` says that they
do not suffice. The references that `streamify` keeps to an entry that it pops from its stack are
taken to read what was there.
-/
namespace Sese.Yaml

open Foundation
open Json (Tokens Waiting)

/-- `strtod`: the number, and the text that the end pointer points to. -/
class Strtod (δ : Type) extends Double δ where
  strtod : Bytes → δ × Bytes

/-- No floating point numbers at all cannot be read, so that there is one. -/
instance : Strtod Unit where
  stod _ := .error .terminate
  to_string _ := []
  strtod text := ((), text)

/-- A line: the number of spaces in front, and the tokens. -/
abbrev Line := ℕ × Tokens

/-- `getSpaceCount`, an `int`. -/
def getSpaceCount (line : Bytes) : Except Fault ℕ :=
  let value := (line.takeWhile fun ch => ch = 32).length
  if value < 2 ^ 31 then .ok value else .error .intOverflow

/-- The loop of `getLine`: the line, and the input behind it. Empty lines are left out. -/
def getLineLoop : Bytes → Bytes → Bytes × Bytes
  | builder, [] => (builder, [])
  | builder, ch :: input =>
    if ch = 13 ∨ ch = 10 then if builder = [] then getLineLoop [] input else (builder, input)
    else getLineLoop (builder ++ [ch]) input

def getLine (input : Bytes) : Except Fault ((ℕ × Bytes) × Bytes) := do
  let (str, input) := getLineLoop [] input
  let count ← getSpaceCount str
  return ((count, str.drop count), input)

/-- Where the tokenizer is: between tokens, in a word, or in a text with quotes; and what the
builder holds. -/
inductive Scanning
  | between
  | word (builder : Bytes)
  | quot1 (builder : Bytes)
  | quot2 (tran : Bool) (builder : Bytes)

/-- What is in the builder at the end of the line, when there is something in it. -/
def Scanning.last : Scanning → Tokens
  | .between => []
  | .word builder => if builder = [] then [] else [builder]
  | .quot1 builder => if builder = [] then [] else [builder]
  | .quot2 _ builder => if builder = [] then [] else [builder]

def tokenizer : Scanning → Bytes → Tokens
  | scanning, [] => scanning.last
  | .quot1 builder, ch :: line =>
    if ch = 39 then builder :: tokenizer .between line else tokenizer (.quot1 (builder ++ [ch])) line
  | .quot2 tran builder, ch :: line =>
    if tran then tokenizer (.quot2 false (builder ++ [92, ch])) line
    else if ch = 34 then builder :: tokenizer .between line
    else if ch = 92 then tokenizer (.quot2 true builder) line
    else tokenizer (.quot2 false (builder ++ [ch])) line
  | .word builder, ch :: line =>
    if ch = 58 then builder :: [58] :: tokenizer .between line
    else tokenizer (.word (builder ++ [ch])) line
  | .between, ch :: line =>
    if ch = 39 then tokenizer (.quot1 []) line
    else if ch = 34 then tokenizer (.quot2 false []) line
    else if ch = 58 then [58] :: tokenizer .between line
    else if ch = 45 then [45] :: tokenizer .between line
    else if ch = 32 then tokenizer .between line
    else tokenizer (.word [ch]) line

/-- One round of the first loop of `parse`. -/
def readRound (s : List Line × Bytes) : Except Fault ((List Line × Bytes) ⊕ List Line) := do
  let ((count, line), input) ← getLine s.2
  if line = [] then return .inr s.1
  else return .inl (s.1 ++ [(count, tokenizer .between line)], input)

/-- `strtol` in base 10: the number, and the text that the end pointer points to. A `long` has 64
bits, and a number that is out of range becomes the nearest one. -/
def strtol (text : Bytes) : ℤ × Bytes :=
  let s := (cstr text).dropWhile isspace
  match scanInt s.length s with
  | none => (0, cstr text)
  | some (n, rest) => (max (-2 ^ 63) (min n (2 ^ 63 - 1)), rest)

variable {δ : Type} [Strtod δ]

def parseBasic (value : Bytes) : Value δ :=
  if strcmpDoNotCase value (bytes "null") ∨ value = [126] ∨ value = [] then .null
  else if strcmpDoNotCase value (bytes "true") ∨ strcmpDoNotCase value (bytes "yes") then .bool true
  else if strcmpDoNotCase value (bytes "false") ∨ strcmpDoNotCase value (bytes "no") then .bool false
  else if (46 : UInt8) ∈ value then
    let (d, rest) : δ × Bytes := Strtod.strtod (cstr value)
    if rest = [] then .double d else .string (cstr value)
  else
    let (l, rest) := strtol value
    if rest = [] then .int l else .string (cstr value)

/-- What the parser holds: the value on top of its stack with the count, which is `none` for -1,
the values below it, and the queue of the lines. -/
structure State (δ : Type) where
  top : Value δ
  count : Option ℕ
  stack : List (Waiting δ × ℕ)
  lines : List Line

/-- What a round of the loop of `parseObject` or `parseArray` leads to: another round, or the end of
the call, and then another call or the result of `parse`. -/
abbrev Turn (δ : Type) := State δ ⊕ (State δ ⊕ Value δ)

/-- The call returns `true`, and the value is not on the stack any more. -/
def State.leave (s : State δ) (top : Value δ) (lines : List Line) : Turn δ :=
  match s.stack with
  | [] => .inr (.inr top)
  | (parent, count) :: stack => .inr (.inl ⟨parent.resume top, some count, stack, lines⟩)

/-- The call returns `true` with the value and a new one on the stack. -/
def State.enter (s : State δ) (count : ℕ) (parent : Waiting δ) (child : Value δ)
    (lines : List Line) : Turn δ :=
  .inr (.inl ⟨child, none, (parent, count) :: s.stack, lines⟩)

/-- The line of an element that is a container stays in the queue, with what is left of its tokens and
two more spaces. -/
def State.nest (s : State δ) (count : ℕ) (values : List (Value δ)) (child : Value δ) (tokens : Tokens)
    (lines : List Line) : Except Fault (Turn δ) :=
  if count + 2 < 2 ^ 31 then .ok (s.enter count (.list values) child ((count + 2, tokens) :: lines))
  else .error .intOverflow

def State.again (s : State δ) (count : ℕ) (top : Value δ) (lines : List Line) : Turn δ :=
  .inl ⟨top, some count, s.stack, lines⟩

/-- The call returns `false`. -/
def failed : Turn δ := .inr (.inr .null)

/-- A line of a dictionary with the tokens `key` and another one; `lines` is what is behind it. -/
def parseKey (s : State δ) (count : ℕ) (members : List (Bytes × Value δ)) (key : Bytes)
    (lines : List Line) : Except Fault (Turn δ) :=
  match lines with
  | [] => .ok (s.again count (.dict (Value.set members key .null)) [])
  | (next, tokens) :: _ =>
    if next = count then .ok (s.again count (.dict (Value.set members key .null)) lines)
    else if next < count then .ok (s.leave (.dict (Value.set members key .null)) lines)
    else
      match tokens with
      | [] => .error .overread
      | first :: _ =>
        let value := Value.setRef members key (if first = [45] then .list [] else .dict [])
        .ok (s.enter count (.dict members key) value lines)

/-- One round of the loop of `parseObject`, for a line at the front of the queue. -/
def parseObject (s : State δ) (count : ℕ) (members : List (Bytes × Value δ)) (line : Line)
    (lines : List Line) : Except Fault (Turn δ) :=
  if count = line.1 then
    match line.2 with
    | [key, colon, value] =>
      if colon ≠ [58] then .ok failed
      else .ok (s.again count (.dict (Value.set members key (parseBasic value))) lines)
    | [key, _] => parseKey s count members key lines
    -- no branch of the source is for another number of tokens: nothing changes
    | _ => .ok (s.again count (.dict members) (line :: lines))
  else if line.1 < count then .ok (s.leave (.dict members) (line :: lines))
  else .ok (s.again count (.dict members) lines)

/-- A line of a list whose first token is erased. -/
def parseElement (s : State δ) (count : ℕ) (values : List (Value δ)) (tokens : Tokens)
    (lines : List Line) : Except Fault (Turn δ) :=
  match tokens with
  | [] => .ok (s.again count (.list (values ++ [.null])) lines)
  | [value] => .ok (s.again count (.list (values ++ [parseBasic value])) lines)
  | first :: second :: others =>
    if others.length ≤ 1 ∧ second = [58] then
      s.nest count values (.dict []) (first :: second :: others) lines
    else if first = [45] then s.nest count values (.list []) (first :: second :: others) lines
    else .ok failed

/-- One round of the loop of `parseArray`, for a line at the front of the queue. -/
def parseArray (s : State δ) (count : ℕ) (values : List (Value δ)) (line : Line)
    (lines : List Line) : Except Fault (Turn δ) :=
  if line.1 < count then .ok (s.leave (.list values) (line :: lines))
  else
    match line.2 with
    | [] => .error .overread
    | _ :: tokens =>
      if count = line.1 then parseElement s count values tokens lines
      else .ok (s.again count (.list values) lines)

/-- One round of the loop of `parseObject` or `parseArray`. A count of -1 becomes that of the line. -/
def turn (s : State δ) : Except Fault (Turn δ) :=
  match s.top, s.lines with
  | .dict members, [] => .ok (s.leave (.dict members) [])
  | .dict members, line :: lines => parseObject s (s.count.getD line.1) members line lines
  | .list values, [] => .ok (s.leave (.list values) [])
  | .list values, line :: lines => parseArray s (s.count.getD line.1) values line lines
  -- `setRef` has led to a value that is there and has no elements
  | _, _ => .ok failed

/-- The first value on the stack of `parse`; otherwise there is a result at once. -/
def start : List Line → State δ ⊕ Value δ
  | [] => .inr .null
  | (_, []) :: _ => .inr .null
  | (count, first :: tokens) :: lines =>
    .inl ⟨if first = [45] then .list [] else .dict [], none, [], (count, first :: tokens) :: lines⟩

/-- `parse`, with at most `fuel` rounds of each of its loops. -/
def parse (fuel : ℕ) (input : Bytes) : Except Fault (Value δ) := do
  let lines ← iterate .endlessLoop readRound fuel ([], input)
  match start lines with
  | .inr value => .ok value
  | .inl s => iterate .endlessLoop (iterate .endlessLoop turn fuel) fuel s

/-- `writeSpace`, which reduces the count before it divides it. -/
def writeSpace (count : ℕ) : Bytes :=
  let count := count % 1024
  let times := count / 1024
  List.replicate (times * 1024) 32 ++ List.replicate count 32

/-- The spaces in front of an entry; `count` includes it. -/
def indentation (count level : ℕ) (prefixed : Bool) : Bytes :=
  if count ≠ 1 ∨ prefixed then writeSpace (level * 2 % 2 ^ 32) else []

/-- `streamifyBasic`; `getString` of what is no string throws. -/
def streamifyBasic : Value δ → Except Fault Bytes
  | .null => .ok [126, 10]
  | .string data => .ok (data ++ [10])
  | .blob _ => .error .terminate
  | value => .ok (value.toStringBasic ++ [10])

/-- An entry of the stack of `streamify`: the value, how many of its entries are written, the level
and the prefix flag. -/
structure Entry (δ : Type) where
  value : Value δ
  count : ℕ
  level : ℕ
  prefixed : Bool

/-- What the writer holds: the entry on top, those below it, the iterators of the dictionaries among
them, and what is written. An iterator is the list of the members from there on. -/
structure Writing (δ : Type) where
  top : Entry δ
  stack : List (Entry δ)
  iters : List (List (Bytes × Value δ))
  out : Bytes

/-- What a round of the loop of `streamifyObject` or `streamifyArray` leads to: another round, or the
end of the call, and then another call or the result of `streamify` with what is written. -/
abbrev Written (δ : Type) := Writing δ ⊕ (Writing δ ⊕ Bool × Bytes)

/-- The call returns `true` at the end of the container. -/
def Writing.leave (s : Writing δ) (iters : List (List (Bytes × Value δ))) : Written δ :=
  match s.stack with
  | [] => .inr (.inr (true, s.out))
  | entry :: stack => .inr (.inl ⟨entry, stack, iters, s.out⟩)

/-- The call returns `true` with the container and a value of it on the stack. -/
def Writing.enter (s : Writing δ) (count : ℕ) (child : Value δ) (prefixed : Bool)
    (iters : List (List (Bytes × Value δ))) (text : Bytes) : Written δ :=
  .inr (.inl ⟨⟨child, 0, (s.top.level + 1) % 2 ^ 32, prefixed⟩,
    { s.top with count, prefixed := true } :: s.stack, iters, s.out ++ text⟩)

def Writing.again (s : Writing δ) (count : ℕ) (iters : List (List (Bytes × Value δ)))
    (text : Bytes) : Written δ :=
  .inl ⟨{ s.top with count }, s.stack, iters, s.out ++ text⟩

/-- One round of the loop of `streamifyObject`. -/
def streamifyObject (s : Writing δ) : Except Fault (Written δ) :=
  match s.iters with
  | [] => .error .nullPointer
  | [] :: iters => .ok (s.leave iters)
  | ((name, value) :: iter) :: iters =>
    let count := (s.top.count + 1) % 2 ^ 32
    let text := indentation count s.top.level s.top.prefixed ++ (name ++ [58, 32])
    match value with
    | .dict members => .ok (s.enter count value true (members :: iter :: iters) (text ++ [10]))
    | .list _ => .ok (s.enter count value true (iter :: iters) (text ++ [10]))
    | _ => do
      let basic ← streamifyBasic value
      .ok (s.again count (iter :: iters) (text ++ basic))

/-- One round of the loop of `streamifyArray`. -/
def streamifyArray (s : Writing δ) (values : List (Value δ)) : Except Fault (Written δ) :=
  match values[s.top.count]? with
  | none => .ok (s.leave s.iters)
  | some value =>
    let count := (s.top.count + 1) % 2 ^ 32
    let text := indentation count s.top.level s.top.prefixed ++ [45, 32]
    match value with
    | .dict members => .ok (s.enter count value false (members :: s.iters) text)
    | .list _ => .ok (s.enter count value false s.iters text)
    | _ => do
      let basic ← streamifyBasic value
      .ok (s.again count s.iters (text ++ basic))

/-- One round of the loop of `streamifyObject` or `streamifyArray`. -/
def streamTurn (s : Writing δ) : Except Fault (Written δ) :=
  match s.top.value with
  | .dict _ => streamifyObject s
  | .list values => streamifyArray s values
  | _ => .ok (.inr (.inr (false, s.out)))

def iterOf : Value δ → List (List (Bytes × Value δ))
  | .dict members => [members]
  | _ => []

/-- `streamify`, with at most `fuel` rounds of each of its loops: what it returns and what it has
written. -/
def streamify (fuel : ℕ) (value : Value δ) : Except Fault (Bool × Bytes) :=
  iterate .endlessLoop (iterate .endlessLoop streamTurn fuel) fuel
    ⟨⟨value, 0, 0, true⟩, [], iterOf value, []⟩

end Sese.Yaml
