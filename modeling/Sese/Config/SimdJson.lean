import Sese.Config.Value

/-!
# The conversion from `simdjson`

`Json::simdParse`, with the parser of the library as a parameter. Every value has an identity,
which is what a pointer to it is: the pointer dangles when no value of the tree has it.
-/
namespace Sese.Json

open Foundation
open Net.Http (byteOrder)

variable {δ : Type}

/-- `simdjson::dom::element`. The strings and keys are unescaped; the members of an object are in
the order of the text. -/
inductive Element (δ : Type) where
  | array (children : List (Element δ))
  | object (members : List (Bytes × Element δ))
  | int64 (i : ℤ)
  | uint64 (n : ℕ)
  | double (d : δ)
  | string (s : Bytes)
  | bool (b : Bool)
  | null_value

/-- A value with its identity. The value of a `word` is neither a list nor a dictionary. -/
inductive Node (δ : Type) where
  | word (id : ℕ) (value : Value δ)
  | list (id : ℕ) (nodes : List (Node δ))
  | dict (id : ℕ) (members : List (Bytes × Node δ))

/-- Why the conversion does not return. -/
inductive ConvertFault
  | danglingPointer
  /-- `getList` or `getDict` of a value of another kind throws. -/
  | badVariantAccess
  | endlessLoop
  deriving DecidableEq, Repr

def Node.id : Node δ → ℕ
  | .word id _ => id
  | .list id _ => id
  | .dict id _ => id

mutual

def Node.value : Node δ → Value δ
  | .word _ value => value
  | .list _ nodes => .list (nodeValues nodes)
  | .dict _ members => .dict (memberNodeValues members)

def nodeValues : List (Node δ) → List (Value δ)
  | [] => []
  | node :: nodes => node.value :: nodeValues nodes

def memberNodeValues : List (Bytes × Node δ) → List (Bytes × Value δ)
  | [] => []
  | (key, node) :: members => (key, node.value) :: memberNodeValues members

end

mutual

def Node.find (id : ℕ) : Node δ → Option (Node δ)
  | .word id' value => if id' = id then some (.word id' value) else none
  | .list id' nodes => if id' = id then some (.list id' nodes) else findNode id nodes
  | .dict id' members => if id' = id then some (.dict id' members) else findMember id members

def findNode (id : ℕ) : List (Node δ) → Option (Node δ)
  | [] => none
  | node :: nodes => node.find id <|> findNode id nodes

def findMember (id : ℕ) : List (Bytes × Node δ) → Option (Node δ)
  | [] => none
  | (_, node) :: members => node.find id <|> findMember id members

end

mutual

/-- The tree when the value that a pointer leads to has become another. -/
def Node.replace (id : ℕ) (new : Node δ) : Node δ → Node δ
  | .word id' value => if id' = id then new else .word id' value
  | .list id' nodes => if id' = id then new else .list id' (replaceNode id new nodes)
  | .dict id' members => if id' = id then new else .dict id' (replaceMember id new members)

def replaceNode (id : ℕ) (new : Node δ) : List (Node δ) → List (Node δ)
  | [] => []
  | node :: nodes => Node.replace id new node :: replaceNode id new nodes

def replaceMember (id : ℕ) (new : Node δ) : List (Bytes × Node δ) → List (Bytes × Node δ)
  | [] => []
  | (key, node) :: members => (key, Node.replace id new node) :: replaceMember id new members

end

/-- The value of an element that is neither an array nor an object. -/
def wordOf : Element δ → Option (Value δ)
  | .int64 i => some (.int i)
  | .uint64 n => some (.int (if n < 2 ^ 63 then n else n - 2 ^ 64))
  | .double d => some (.double d)
  | .string s => some (.string s)
  | .bool b => some (.bool b)
  | .null_value => some .null
  | .array _ => none
  | .object _ => none

/-- `Value::list()` for an array, `Value::dict()` for an object. -/
def blank (element : Element δ) (id : ℕ) : Node δ :=
  match element with
  | .object _ => .dict id []
  | _ => .list id []

/-- What a container gets, the next identity, and what goes on the stack, the first first. -/
structure Filled (δ α : Type) where
  content : List α
  next : ℕ
  pushed : List (Element δ × ℕ)

/-- The loop over the children of an array: what is appended. -/
def fillList : List (Element δ) → ℕ → Filled δ (Node δ)
  | [], next => ⟨[], next, []⟩
  | child :: children, next =>
    let rest := fillList children (next + 1)
    match wordOf child with
    | some value => ⟨.word next value :: rest.content, rest.next, rest.pushed⟩
    | none => ⟨blank child next :: rest.content, rest.next, (child, next) :: rest.pushed⟩

/-- The loop over the members of an object. -/
def fillDict : List (Bytes × Element δ) → List (Bytes × Node δ) → ℕ → Filled δ (Bytes × Node δ)
  | [], members, next => ⟨members, next, []⟩
  | (key, value) :: rest, members, next =>
    match wordOf value with
    | some word => fillDict rest (OrdMap.insertEntry byteOrder key (.word next word) members) (next + 1)
    | none =>
      match members.find? fun e => e.1 = key with
      -- `setRef` leads to the value that the key has
      | some (_, node) =>
        let filled := fillDict rest members next
        ⟨filled.content, filled.next, (value, node.id) :: filled.pushed⟩
      | none =>
        let filled := fillDict rest (OrdMap.insertEntry byteOrder key (blank value next) members) (next + 1)
        ⟨filled.content, filled.next, (value, next) :: filled.pushed⟩

/-- The loop of `parse(const simdjson::dom::element &)`. -/
def convertLoop : ℕ → Node δ → ℕ → List (Element δ × ℕ) → Except ConvertFault (Value δ)
  | _, root, _, [] => .ok root.value
  | 0, _, _, _ :: _ => .error .endlessLoop
  | fuel + 1, root, next, (element, id) :: stack =>
    match element, root.find id with
    | _, none => .error .danglingPointer
    | .array children, some (.list _ nodes) =>
      let filled := fillList children next
      convertLoop fuel (Node.replace id (.list id (nodes ++ filled.content)) root) filled.next
        (filled.pushed.reverse ++ stack)
    | .object members, some (.dict _ old) =>
      let filled := fillDict members old next
      convertLoop fuel (Node.replace id (.dict id filled.content) root) filled.next
        (filled.pushed.reverse ++ stack)
    | _, some _ => .error .badVariantAccess

mutual

/-- The rounds of the loop: one for every array and object. -/
def Element.containers : Element δ → ℕ
  | .array children => 1 + childContainers children
  | .object members => 1 + memberContainers members
  | _ => 0

def childContainers : List (Element δ) → ℕ
  | [] => 0
  | child :: children => child.containers + childContainers children

def memberContainers : List (Bytes × Element δ) → ℕ
  | [] => 0
  | (_, value) :: members => value.containers + memberContainers members

end

/-- `parse(const simdjson::dom::element &)`. -/
def convert (json : Element δ) : Except ConvertFault (Value δ) :=
  match json with
  | .object _ => convertLoop json.containers (blank json 0) 1 [(json, 0)]
  | .array _ => convertLoop json.containers (blank json 0) 1 [(json, 0)]
  | _ => .ok .null

/-- `simdParse`: `dom` is the parser of the library, which has no result in case of an error. -/
def simdParse (dom : Bytes → Option (Element δ)) (input : Bytes) : Except ConvertFault (Value δ) :=
  match dom input with
  | none => .ok .null
  | some json => convert json

end Sese.Json
