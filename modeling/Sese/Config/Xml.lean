import Sese.Config.Json

/-!
# XML

`XmlUtil::serialize` and `XmlUtil::deserialize`, for an input that is the list of its octets and
an output that takes everything.
-/
namespace Sese.Xml

open Foundation
open Net.Http (byteOrder)
open Json (isSpace Tokens)

structure Element where
  name : Bytes
  value : Bytes := []
  attributes : OrdMap byteOrder Bytes := .empty
  elements : List Element := []

/-- What is in the builder becomes a token when there is something in it. -/
def push (builder : Bytes) (tokens : Tokens) : Tokens :=
  if builder = [] then tokens else builder :: tokens

/-- `tokenizer`; the flag says that the inner loop is in a quoted text. -/
def tokenizer : Bool → Bytes → Bytes → Tokens
  -- what is in the builder at the end of the input is dropped
  | _, _, [] => []
  | false, builder, ch :: input =>
    if isSpace ch then push builder (tokenizer false [] input)
    else if ch = 62 ∨ ch = 60 ∨ ch = 47 then push builder ([ch] :: tokenizer false [] input)
    else if ch = 61 then builder :: [ch] :: tokenizer false [] input
    else if ch = 34 then tokenizer true builder input
    else tokenizer false (builder ++ [ch]) input
  | true, builder, ch :: input =>
    if ch = 34 then builder :: tokenizer false [] input
    else tokenizer true (builder ++ [ch]) input

/-- `removeComment`; `none` is the result `false`. -/
def removeComment (tokens : Tokens) : Option Tokens :=
  match tokens.tail.dropWhile fun token => token ≠ bytes "--" with
  | _ :: front :: tokens => if front = [62] then some tokens else none
  | _ => none

/-- The loop over the attributes; `none` is the result `nullptr` of `createElement`. -/
def readAttributes (attributes : OrdMap byteOrder Bytes) :
    Tokens → Except Fault (Option (OrdMap byteOrder Bytes × Tokens))
  | [] => .error .emptyDeque
  | attrName :: tokens =>
    if attrName = [62] ∨ attrName = [47] then .ok (some (attributes, attrName :: tokens))
    else
      match tokens with
      | equals :: value :: tokens =>
        if equals ≠ [61] then .ok none else readAttributes (attributes.insert attrName value) tokens
      | _ => .ok none

/-- What one round of the loop of `createElement` leads to. -/
inductive Round
  /-- The result is `nullptr`. -/
  | null
  | returned (element : Element) (tokens : Tokens)
  | again (element : Element) (tokens : Tokens)

/-- The name and the bracket behind `</`. -/
def closing (element : Element) : Tokens → Round
  | name :: bracket :: tokens =>
    if name = element.name ∧ bracket = [62] then .returned element tokens else .null
  | _ => .null

/-- The loop over the children, where `create` is the recursive call. Every pass takes a token. -/
def readChildren (create : Tokens → Except Fault (Option (Element × Tokens))) :
    ℕ → Element → Tokens → Except Fault Round
  | 0, _, _ => .error .endlessLoop
  | _ + 1, _, [] => .error .emptyDeque
  | fuel + 1, element, front :: tokens =>
    if front ≠ [60] then .ok (.again element (front :: tokens))
    else
      match tokens with
      | [] => .error .emptyDeque
      | front :: tokens =>
        if front = [47] then .ok (closing element tokens)
        else do
          match ← create (front :: tokens) with
          | none => .ok .null
          | some (object, tokens) =>
            readChildren create fuel { element with elements := element.elements ++ [object] } tokens

/-- The text of an element and what is behind it. -/
def readText (element : Element) (tokens : Tokens) : Round :=
  let words := tokens.takeWhile fun token => token ≠ [60]
  let element := { element with value := [32].intercalate words }
  match tokens.dropWhile fun token => token ≠ [60] with
  | _ :: slash :: tokens => if slash = [47] then closing element tokens else .null
  | _ => .null

/-- What is behind the attributes. -/
def readContent (create : Tokens → Except Fault (Option (Element × Tokens))) (element : Element) :
    Tokens → Except Fault Round
  | [] => .ok .null
  | front :: tokens =>
    if front = [47] then
      match tokens with
      | [] => .ok .null
      | front :: tokens => .ok (if front = [62] then .returned element tokens else .null)
    else
      match tokens with
      | [] => .ok .null
      | front :: _ =>
        if front = [60] then readChildren create (tokens.length + 1) element tokens
        else .ok (readText element tokens)

/-- The part of a round that begins with the name of the element. -/
def readElement (create : Tokens → Except Fault (Option (Element × Tokens))) :
    Tokens → Except Fault Round
  | [] => .error .emptyDeque
  | [_] => .ok .null
  | name :: tokens => do
    match ← readAttributes .empty tokens with
    | none => .ok .null
    | some (attributes, tokens) => readContent create { name, attributes } tokens

/-- One round of the loop of `createElement`, which has a token at least. In front of a root
comment the loop goes on with the `element` that it has. -/
def round (create : Tokens → Except Fault (Option (Element × Tokens))) (isSubElement : Bool)
    (tokens : Tokens) : Except Fault (Round ⊕ Tokens) :=
  if isSubElement then
    if tokens.head? = some (bytes "!--") then
      match removeComment tokens with
      | none => .ok (.inl .null)
      | some [] => .error .emptyDeque
      | some (_ :: tokens) => .inl <$> readElement create tokens
    else .inl <$> readElement create tokens
  else
    match tokens with
    | [] => .error .emptyDeque
    | front :: tokens =>
      if front ≠ [60] then .ok (.inl .null)
      else if tokens = [] then .ok (.inl .null)
      else if tokens.head? = some (bytes "!--") then
        match removeComment tokens with
        | none => .ok (.inl .null)
        | some tokens => .ok (.inr tokens)
      else .inl <$> readElement create tokens

/-- The loop of `createElement`. Every round takes a token. -/
def elementLoop (create : Tokens → Except Fault (Option (Element × Tokens))) (isSubElement : Bool) :
    ℕ → Option Element → Tokens → Except Fault (Option (Element × Tokens))
  | 0, _, _ => .error .endlessLoop
  | _ + 1, element, [] => .ok (element.map fun element => (element, []))
  | fuel + 1, element, token :: tokens => do
    match ← round create isSubElement (token :: tokens) with
    | .inl .null => .ok none
    | .inl (.returned element tokens) => .ok (some (element, tokens))
    | .inl (.again element tokens) => elementLoop create isSubElement fuel (some element) tokens
    | .inr tokens => elementLoop create isSubElement fuel element tokens

/-- `createElement`. The level is counted down in front of every recursive call. -/
def createElement : ℕ → Bool → Tokens → Except Fault (Option (Element × Tokens))
  | 0, _, _ => .ok none
  | level + 1, isSubElement, tokens =>
    elementLoop (createElement level true) isSubElement (tokens.length + 1) none tokens

/-- `XmlUtil::deserialize`; `none` is the null pointer. -/
def deserialize (input : Bytes) (level : ℕ) : Except Fault (Option Element) := do
  let result ← createElement level false (tokenizer false [] input)
  return result.map Prod.fst

def serializeAttribute (attr : Bytes × Bytes) : Bytes := 32 :: (attr.1 ++ [61, 34] ++ attr.2 ++ [34])

mutual

def serialize : Element → Bytes
  | ⟨name, value, attributes, elements⟩ =>
    60 :: (name ++ attributes.entries.flatMap serializeAttribute ++
      if elements ≠ [] then 62 :: (serializeAll elements ++ [60, 47] ++ name ++ [62])
      else if value = [] then [47, 62]
      else 62 :: (value ++ [60, 47] ++ name ++ [62]))

def serializeAll : List Element → Bytes
  | [] => []
  | element :: elements => serialize element ++ serializeAll elements

end

end Sese.Xml
