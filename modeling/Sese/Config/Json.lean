import Sese.Config.Value

/-!
# JSON

`Json::parse` and `Json::streamify`, for an input that is the list of its octets and an output
that takes everything. Nothing between a conversion of the standard library and the caller of
`parse` catches what the conversion throws; the fault `terminate` stands for that exception.
-/
namespace Sese.Json

open Foundation

abbrev Tokens := List Bytes

def isSpace (b : UInt8) : Bool := b = 32 ∨ b = 10 ∨ b = 13 ∨ b = 9 ∨ b = 11 ∨ b = 8

/-- `isKeyword`, which looks at the first character: `}`, `]`, `:` or `,`. -/
def isKeyword (str : Bytes) : Bool :=
  str.head? = some 125 ∨ str.head? = some 93 ∨ str.head? = some 58 ∨ str.head? = some 44

/-- Where the tokenizer is: between tokens, in a string, or in a token of another kind; and what
the builder holds. -/
inductive Scanning
  | between
  | string (builder : Bytes)
  | word (builder : Bytes)

/-- `tokenizer`; `none` is the result `false`. -/
def tokenizer : Scanning → Bytes → Option Tokens
  -- what is in the builder at the end of the input is dropped
  | _, [] => some []
  | .between, ch :: input =>
    if ch = 123 ∨ ch = 125 ∨ ch = 91 ∨ ch = 93 ∨ ch = 44 ∨ ch = 58 then
      ([ch] :: ·) <$> tokenizer .between input
    else if ch = 34 then tokenizer (.string [34]) input
    else if isSpace ch then tokenizer .between input
    else tokenizer (.word [ch]) input
  | .string builder, ch :: input =>
    if ch = 92 then
      match input with
      | [] => none
      | ch :: input => tokenizer (.string (builder ++ [92, ch])) input
    else if ch = 34 then ((builder ++ [34]) :: ·) <$> tokenizer .between input
    else tokenizer (.string (builder ++ [ch])) input
  | .word builder, ch :: input =>
    if isKeyword [ch] then (fun tokens => builder :: [ch] :: tokens) <$> tokenizer .between input
    else if isSpace ch then (builder :: ·) <$> tokenizer .between input
    else tokenizer (.word (builder ++ [ch])) input

variable {δ : Type} [Double δ]

/-- `std::string::substr`, which throws when the position is behind the end. -/
def substr (s : Bytes) (pos n : ℕ) : Except Fault Bytes :=
  if pos ≤ s.length then .ok ((s.drop pos).take n) else .error .terminate

/-- `parseBasic`. The point of a floating point number is looked for behind the first octet. -/
def parseBasic (value : Bytes) : Except Fault (Value δ) :=
  if value = bytes "null" then .ok .null
  else if value = bytes "true" then .ok (.bool true)
  else if value = bytes "false" then .ok (.bool false)
  else if value.head? = some 34 then do
    let text ← substr value 1 (value.length - 2)
    .ok (.string text)
  else if (46 : UInt8) ∈ value.drop 1 then do
    let d ← Double.stod value
    .ok (.double d)
  else do
    let i ← stoll value
    .ok (.int i)

/-- A container on the stack that waits for the one above it. -/
inductive Waiting (δ : Type) where
  | dict (members : List (Bytes × Value δ)) (name : Bytes)
  | list (values : List (Value δ))

/-- What one call of `parseObject` or `parseArray` leads to. -/
inductive Called (δ : Type) where
  /-- The result is `false`. -/
  | failed
  | closed (value : Value δ) (tokens : Tokens)
  | nested (parent : Waiting δ) (child : Value δ) (tokens : Tokens)

/-- `parseObject`; `comma` says that a comma was taken in front of the name. -/
def parseObject : Bool → Tokens → List (Bytes × Value δ) → Except Fault (Called δ)
  | _, [], _ => .ok .failed
  | comma, name :: tokens, members =>
    if comma = false ∧ name = [125] then .ok (.closed (.dict members) tokens)
    else if comma = false ∧ name = [44] then parseObject true tokens members
    else do
      -- of a name with one octet nothing is left: the second argument wraps around
      let name ← substr name 1 (name.length - 2)
      match tokens with
      | colon :: value :: tokens =>
        if colon ≠ [58] then .ok .failed
        else if value = [123] then
          .ok (.nested (.dict members name) (Value.setRef members name (.dict [])) tokens)
        else if value = [91] then
          .ok (.nested (.dict members name) (Value.setRef members name (.list [])) tokens)
        else if isKeyword value then .ok .failed
        else do
          let value ← parseBasic value
          parseObject false tokens (Value.set members name value)
      | _ => .ok .failed

/-- `parseArray`, which is finished at the end of the tokens too. -/
def parseArray : Bool → Tokens → List (Value δ) → Except Fault (Called δ)
  | comma, [], values => .ok (if comma then .failed else .closed (.list values) [])
  | comma, token :: tokens, values =>
    if comma = false ∧ token = [93] then .ok (.closed (.list values) tokens)
    else if comma = false ∧ token = [44] then parseArray true tokens values
    else if token = [123] then .ok (.nested (.list values) (.dict []) tokens)
    else if token = [91] then .ok (.nested (.list values) (.list []) tokens)
    else if isKeyword token then .ok .failed
    else do
      let value ← parseBasic token
      parseArray false tokens (values ++ [value])

theorem parseObject_closing (tokens : Tokens) (members : List (Bytes × Value δ)) :
    parseObject false ([125] :: tokens) members = .ok (.closed (.dict members) tokens) := by
  rw [parseObject.eq_def]
  rfl

theorem parseArray_closing (tokens : Tokens) (values : List (Value δ)) :
    parseArray false ([93] :: tokens) values = .ok (.closed (.list values) tokens) := by
  rw [parseArray.eq_def]
  rfl

/-- One round of the loop of `parse`. -/
def parseTop (top : Value δ) (tokens : Tokens) : Except Fault (Called δ) :=
  match top with
  | .dict members => parseObject false tokens members
  | .list values => parseArray false tokens values
  -- `setRef` has led to a value that is there and has no elements
  | _ => .ok .failed

/-- The container that has waited, with the finished one in it. -/
def Waiting.resume : Waiting δ → Value δ → Value δ
  | .dict members name, value => .dict (Value.set members name value)
  | .list values, value => .list (values ++ [value])

/-- The loop of `parse`. Every round takes a token or leaves a container. -/
def parseLoop : ℕ → Value δ → List (Waiting δ) → Tokens → Except Fault (Value δ)
  | 0, _, _, _ => .error .endlessLoop
  | fuel + 1, top, stack, tokens => do
    match ← parseTop top tokens with
    | .failed => .ok .null
    | .closed value tokens =>
      match stack with
      | [] => .ok value
      | parent :: stack => parseLoop fuel (parent.resume value) stack tokens
    | .nested parent child tokens => parseLoop fuel child (parent :: stack) tokens

/-- `parse(Tokens &)`, which is called with a token at least. -/
def parseTokens : Tokens → Except Fault (Value δ)
  | [] => .error .nullPointer
  | front :: tokens =>
    let fuel := 2 * tokens.length + 2
    if front = [123] then parseLoop fuel (.dict []) [] tokens
    else if front = [91] then parseLoop fuel (.list []) [] tokens
    else .ok .null

/-- `parse(InputStream *)`. -/
def parse (input : Bytes) : Except Fault (Value δ) :=
  match tokenizer .between input with
  | none => .ok .null
  | some [] => .ok .null
  | some tokens => parseTokens tokens

/-- `streamifyBasic`; `none` is the result `false`. -/
def streamifyBasic : Value δ → Option Bytes
  | .null => some (bytes "null")
  | .bool b => some (if b then bytes "true" else bytes "false")
  | .blob _ => none
  | .list _ => none
  | .dict _ => none
  | value => some value.toStringBasic

/-- What one call of `streamifyObject` or `streamifyArray` leads to, and what it has written. -/
inductive Streamed (δ : Type) where
  | failed (out : Bytes)
  | done (out : Bytes)
  | nested (count : ℕ) (child : Value δ) (iters : List (List (Bytes × Value δ))) (out : Bytes)

def Streamed.after (front : Bytes) : Streamed δ → Streamed δ
  | .failed out => .failed (front ++ out)
  | .done out => .done (front ++ out)
  | .nested count child iters out => .nested count child iters (front ++ out)

/-- What is written in front of an element: `count` is an `unsigned int`, `size` a `size_t`. -/
def separator (opening : UInt8) (count size : ℕ) : Bytes :=
  if count = 0 then [opening] else if count < size then [44] else []

/-- The loop of `streamifyObject`. The iterator is the list of the entries from there on. -/
def streamifyMembers (size : ℕ) : ℕ → List (Bytes × Value δ) → Streamed δ
  | _, [] => .done []
  | count, (name, value) :: iter =>
    let out := separator 123 count size ++ 34 :: (name ++ [34, 58])
    let count := (count + 1) % 2 ^ 32
    match value with
    | .dict members => .nested count value [members, iter] out
    | .list _ => .nested count value [iter] out
    | _ =>
      match streamifyBasic value with
      | none => .failed out
      | some text =>
        if count = size then .done (out ++ (text ++ [125]))
        else (streamifyMembers size count iter).after (out ++ text)

def streamifyObject (members : List (Bytes × Value δ)) (count : ℕ) (iter : List (Bytes × Value δ)) :
    Streamed δ :=
  if members = [] then .done [123, 125]
  else if count = members.length then .done [125]
  else streamifyMembers members.length count iter

/-- The loop of `streamifyArray`. -/
def streamifyElements (values : List (Value δ)) : ℕ → ℕ → Except Fault (Streamed δ)
  | 0, _ => .error .endlessLoop
  | fuel + 1, count =>
    match values[count]? with
    | none => .ok (.done [])
    | some value =>
      let out := separator 91 count values.length
      let count := (count + 1) % 2 ^ 32
      match value with
      | .dict members => .ok (.nested count value [members] out)
      | .list _ => .ok (.nested count value [] out)
      | _ =>
        match streamifyBasic value with
        | none => .ok (.failed out)
        | some text =>
          if count = values.length then .ok (.done (out ++ (text ++ [93])))
          else (Streamed.after (out ++ text)) <$> streamifyElements values fuel count

def streamifyArray (fuel : ℕ) (values : List (Value δ)) (count : ℕ) : Except Fault (Streamed δ) :=
  if values = [] then .ok (.done [91, 93])
  else if count = values.length then .ok (.done [93])
  else streamifyElements values fuel count

/-- One round of the loop of `streamify`: what the call leads to, and the iterators that stay. -/
def streamifyTop (fuel : ℕ) (value : Value δ) (count : ℕ) (iters : List (List (Bytes × Value δ))) :
    Except Fault (Streamed δ × List (List (Bytes × Value δ))) :=
  match value, iters with
  | .dict _, [] => .error .nullPointer
  | .dict members, iter :: iters => .ok (streamifyObject members count iter, iters)
  | .list values, iters => (·, iters) <$> streamifyArray fuel values count
  | _, iters => .ok (.failed [], iters)

/-- The loop of `streamify`, for `rounds` rounds at most. -/
def streamifyLoop (fuel : ℕ) : ℕ → List (Value δ × ℕ) → List (List (Bytes × Value δ)) →
    Except Fault (Bool × Bytes)
  | _, [], _ => .ok (true, [])
  | 0, _ :: _, _ => .error .endlessLoop
  | rounds + 1, (value, count) :: stack, iters => do
    let (streamed, iters) ← streamifyTop fuel value count iters
    match streamed with
    | .failed out => .ok (false, out)
    | .done out => (·.map id (out ++ ·)) <$> streamifyLoop fuel rounds stack iters
    | .nested count child news out =>
      (·.map id (out ++ ·)) <$>
        streamifyLoop fuel rounds ((child, 0) :: (value, count) :: stack) (news ++ iters)

def iterOf : Value δ → List (List (Bytes × Value δ))
  | .dict members => [members]
  | _ => []

/-- `streamify`, for as many rounds of each of its loops as the fuel says: what it returns and
what it has written. -/
def streamify (fuel : ℕ) (value : Value δ) : Except Fault (Bool × Bytes) :=
  streamifyLoop fuel fuel [(value, 0)] (iterOf value)

theorem streamifyElements_end {values : List (Value δ)} {count : ℕ} (hget : values[count]? = none)
    (fuel : ℕ) : streamifyElements values (fuel + 1) count = .ok (.done []) := by
  rw [streamifyElements, hget]

theorem streamifyElements_container {values : List (Value δ)} {count : ℕ} {value : Value δ}
    (hget : values[count]? = some value) (hcontainer : value.isContainer) (fuel : ℕ) :
    streamifyElements values (fuel + 1) count =
      .ok (.nested ((count + 1) % 2 ^ 32) value (iterOf value)
        (separator 91 count values.length)) := by
  rw [streamifyElements, hget]
  cases value with
  | list _ => rfl
  | dict _ => rfl
  | _ => cases hcontainer

theorem streamifyMembers_container {value : Value δ} (hcontainer : value.isContainer)
    (size count : ℕ) (name : Bytes) (iter : List (Bytes × Value δ)) :
    streamifyMembers size count ((name, value) :: iter) =
      .nested ((count + 1) % 2 ^ 32) value (iterOf value ++ [iter])
        (separator 123 count size ++ 34 :: (name ++ [34, 58])) := by
  rw [streamifyMembers.eq_def]
  cases value with
  | list _ => rfl
  | dict _ => rfl
  | _ => cases hcontainer

theorem streamifyLoop_nil (fuel rounds : ℕ) (iters : List (List (Bytes × Value δ))) :
    streamifyLoop fuel rounds [] iters = .ok (true, []) := by
  rw [streamifyLoop]

end Sese.Json
