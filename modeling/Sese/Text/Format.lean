import Sese.Foundation.Rounds
import Sese.Text.FormatOption
import Sese.Util.Region

/-!
# Formatting

`fmt` counts the placeholders of its pattern and then goes through it once for each argument and
once more. `asserts` tells whether the program is built with its assertions, and `fuel` how many
rounds each call of `parsing` may have.
-/
namespace Sese.Text

open Foundation

/-- Why a call does not come back. -/
inductive Stop
  | fault (fault : Fault)
  /-- `assert` has ended the program. -/
  | assertion
  deriving DecidableEq, Repr

/-- The loop of `FormatParameterCounter`; `prev` is the octet at `p - 1`. -/
def countLoop (prev : UInt8) (count : ℕ) : Bytes → Except Stop ℕ
  | [] => .error (.fault .overread)
  | ch :: rest =>
    if ch = 0 then .ok count
    else countLoop ch (if ch = 123 ∧ prev ≠ 92 then count + 1 else count) rest

/-- `FormatParameterCounter`, with what can be read from `pattern` on. -/
def formatParameterCounter : Bytes → Except Stop ℕ
  | [] => .error (.fault .overread)
  | ch :: rest => countLoop ch (if ch = 123 then 1 else 0) rest

def isKeyWord (c : UInt8) : Bool := c = 123 ∨ c = 125

/-- `pos` is an index into the pattern. -/
structure FmtCtx where
  builder : Bytes
  pattern : Bytes
  pos : ℕ
  deriving DecidableEq, Repr

def FmtCtx.append (ctx : FmtCtx) (s : Bytes) : FmtCtx := { ctx with builder := ctx.builder ++ s }

/-- The variables of `parsing`; `argsBuilder` is none for the null pointer. -/
structure Scan where
  ctx : FmtCtx
  args : Bytes
  inArgs : Bool
  argsBuilder : Option Bytes
  pos1 : ℕ
  deriving DecidableEq, Repr

/-- `std::find_if` from `pos1` to the end. -/
def findKeyWord (pattern : Bytes) (pos1 : ℕ) : ℕ := pos1 + (pattern.drop pos1).findIdx isKeyWord

def isEscaped (pattern : Bytes) (pos2 : ℕ) : Bool := pos2 ≠ 0 ∧ pattern[pos2 - 1]? = some 92

/-- The `pos2 - pos1 - 1` octets from `pos1` on; a length below zero would be one behind the end. -/
def literal (pattern : Bytes) (pos1 pos2 : ℕ) : Except Stop Bytes :=
  if pos1 < pos2 then (load pattern pos1 (pos2 - pos1 - 1)).mapError .fault
  else .error (.fault .overread)

/-- A pass of the loop of `parsing`. It ends with what is returned in it, none if the loop is
left. -/
def parsingRound (s : Scan) : Except Stop (Scan ⊕ (Option Bool × Scan)) :=
  let pattern := s.ctx.pattern
  if s.pos1 = pattern.length then .ok (.inr (none, s))
  else
    let pos2 := findKeyWord pattern s.pos1
    if s.inArgs then
      match pattern[pos2]? with
      | none => .ok (.inr (some false, s))
      | some ch =>
        if isEscaped pattern pos2 then do
          let front ← literal pattern s.pos1 pos2
          return .inl { s with
            argsBuilder := some (s.argsBuilder.getD [] ++ front ++ [ch]), pos1 := pos2 + 1 }
        else if ch = 125 then
          .ok (.inr (none, { s with
            inArgs := false
            args := s.argsBuilder.getD (window pattern s.pos1 (pos2 - s.pos1))
            ctx := { s.ctx with pos := pos2 + 1 } }))
        else .ok (.inl s)
    else
      match pattern[pos2]? with
      | none =>
        .ok (.inr (some true, { s with
          ctx := { s.ctx.append (pattern.drop s.pos1) with pos := pattern.length } }))
      | some ch =>
        if isEscaped pattern pos2 then do
          let front ← literal pattern s.pos1 pos2
          return .inl { s with ctx := s.ctx.append (front ++ [ch]), pos1 := pos2 + 1 }
        else if ch = 123 then
          .ok (.inl { s with
            ctx := s.ctx.append (window pattern s.pos1 (pos2 - s.pos1))
            pos1 := pos2 + 1, inArgs := true })
        else .ok (.inl s)

/-- `FmtCtx::parsing`, with `args` as it was handed over and comes back. -/
def parsing (asserts : Bool) (fuel : ℕ) (ctx : FmtCtx) (args : Bytes) :
    Except Stop (Bool × Bytes × FmtCtx) := do
  let (status, s) ← iterate (.fault .endlessLoop) parsingRound fuel ⟨ctx, args, false, none, ctx.pos⟩
  match status with
  | some status => return (status, s.args, s.ctx)
  | none => if asserts ∧ s.inArgs then .error .assertion else return (true, s.args, s.ctx)

/-- An argument with the `Formatter` of its type: what `format` makes of the builder, and what it
makes of it after a `parse` that succeeds. -/
structure Argument where
  format : Bytes → Bytes
  parse : Bytes → Option (Bytes → Bytes)

/-- `Formatter<std::string>`, and the one of `const char *`. -/
def Argument.ofString (value : Bytes) : Argument where
  format builder := formatOptionStringFormat builder {} value
  parse optStr := (formatOptionStringParse {} optStr).map fun opt builder =>
    formatOptionStringFormat builder opt value

/-- The `format` of a container. -/
def formatItems (beginCh endCh splitCh : UInt8) (items : List Argument) (builder : Bytes) : Bytes :=
  let step (r : Bytes × Bool) (item : Argument) :=
    (item.format (if r.2 then r.1 else r.1 ++ [splitCh]), false)
  (items.foldl step (builder ++ [beginCh], true)).1 ++ [endCh]

/-- The `Formatter` of a container. -/
def Argument.ofIterable (items : List Argument) : Argument where
  format := formatItems 91 93 44 items
  parse args :=
    match args with
    | [beginCh, splitCh, endCh] => some (formatItems beginCh endCh splitCh items)
    | _ => none

def parsingFailed : Bytes := bytes "!\x7bparsing failed\x7d"

def mismatch : Bytes := bytes "!\x7bMismatch in number of parameters\x7d"

/-- The middle of `Format`: the argument with what stands between its braces. -/
def Argument.write (arg : Argument) (parsingArgs : Bytes) (ctx : FmtCtx) : FmtCtx :=
  if parsingArgs ≠ [] then
    match arg.parse parsingArgs with
    | some format => { ctx with builder := format ctx.builder }
    | none => ctx.append parsingFailed
  else { ctx with builder := arg.format ctx.builder }

/-- Both functions `Format`. -/
def format (asserts : Bool) (fuel : ℕ) (ctx : FmtCtx) (arg : Argument) :
    List Argument → Except Stop FmtCtx
  | [] => do
    let (status, parsingArgs, ctx) ← parsing asserts fuel ctx []
    if ¬ status then return ctx
    else
      let (_, _, ctx) ← parsing asserts fuel (arg.write parsingArgs ctx) parsingArgs
      return ctx
  | next :: rest => do
    let (status, parsingArgs, ctx) ← parsing asserts fuel ctx []
    if ¬ status then return ctx
    else format asserts fuel (arg.write parsingArgs ctx) next rest

/-- Both functions `fmt`; `data` is what can be read from the start of the pattern on. -/
def fmt (asserts : Bool) (fuel : ℕ) (data : Bytes) (length : ℕ) (args : List Argument) :
    Except Stop Bytes := do
  let param ← formatParameterCounter data
  match args with
  | [] => if param ≠ 0 then return mismatch else return data.take length
  | arg :: rest =>
    if param ≠ args.length then return mismatch
    else
      let ctx ← format asserts fuel ⟨[], data.take length, 0⟩ arg rest
      return ctx.builder

end Sese.Text
