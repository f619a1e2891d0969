import Sese.Foundation.Blocks
import Sese.Foundation.Runs
import Sese.Util.Bytes

/-!
# The asynchronous logger

`sese::log::AsyncLogger`: the calls of its users, each of them under the mutex, and the steps of
its thread. A buffer is known by its address and by what was written to it; a thread that waits
may wake at any time.
-/
namespace Sese

open Foundation

inductive Level
  | debug
  | info
  | warn
  | err
  deriving DecidableEq

namespace Level

/-- The number of the enumerator. -/
def number : Level → ℕ
  | debug => 0
  | info => 1
  | warn => 2
  | err => 3

end Level

def RECORD_BUFFER_SIZE : ℕ := 4096

/-- `FixedBuilder`, by what it has between its start and `writeSize`; nothing is read from it. -/
abbrev FixedBuilder := Bytes

namespace FixedBuilder

def getSize (_ : FixedBuilder) : ℕ := RECORD_BUFFER_SIZE

def getWriteableSize (buffer : FixedBuilder) : ℕ := RECORD_BUFFER_SIZE - buffer.length

/-- `write`, which takes what there is room for. -/
def write (buffer : FixedBuilder) (content : Bytes) : FixedBuilder :=
  buffer ++ content.take buffer.getWriteableSize

end FixedBuilder

/-- Where the thread is in `loop`; with the buffers that are still to be written by an appender. -/
inductive LoopPlace
  | enter
  | check -- `if (isShutdown) break`
  | lock
  | wait -- `wait_for`, without the mutex
  | swapped -- after the critical section
  | writing (todo : List (ℕ × ℕ))
  | recycle
  | flush (todo : List (ℕ × ℕ))
  | left
  | gone -- the logger is destroyed
  deriving DecidableEq

inductive LoggerFault
  | notLive
  | emptyVector
  | notRunning
  deriving DecidableEq

/-- The logger with the local variables of `loop`. Of each appender there is what was written to
it; the first one is the built-in one. -/
structure AsyncLogger where
  buffers : Blocks FixedBuilder
  currentBuffer : ℕ
  nextBuffer : Option ℕ
  buffer2Ready : List ℕ := []
  isShutdown : Bool := false
  place : LoopPlace := .enter
  buffer1 : Option ℕ := none
  buffer2 : Option ℕ := none
  buffer2_write : List ℕ := []
  written : ℕ → Bytes := fun _ => []

namespace AsyncLogger

/-- `AsyncLogger()`. -/
def create : AsyncLogger where
  buffers := (Blocks.alloc {} []).alloc []
  currentBuffer := 0
  nextBuffer := some 1

def deref (s : AsyncLogger) (p : ℕ) : Except LoggerFault FixedBuilder :=
  (s.buffers.get p).elim (.error .notLive) .ok

/-- `currentBuffer->write`. -/
def write (s : AsyncLogger) (content : Bytes) : Except LoggerFault AsyncLogger := do
  let buffer ← s.deref s.currentBuffer
  return { s with buffers := s.buffers.set s.currentBuffer (buffer.write content) }

/-- `currentBuffer = new io::FixedBuilder(RECORD_BUFFER_SIZE)`. -/
def renew (s : AsyncLogger) : AsyncLogger :=
  { s with buffers := s.buffers.alloc [], currentBuffer := s.buffers.fresh }

/-- `buffer2Ready.push_back(currentBuffer)`. -/
def queue (s : AsyncLogger) : AsyncLogger :=
  { s with buffer2Ready := s.buffer2Ready ++ [s.currentBuffer] }

/-- `currentBuffer = nextBuffer; nextBuffer = nullptr`. -/
def useNext (s : AsyncLogger) (next : ℕ) : AsyncLogger :=
  { s with currentBuffer := next, nextBuffer := none }

/-- `log` for an event with this level, that the formatter makes this text of. -/
def log (builtInLevel : Level) (s : AsyncLogger) (level : Level) (content : Bytes) :
    Except LoggerFault AsyncLogger :=
  if builtInLevel.number ≤ level.number then do
    let buffer ← s.deref s.currentBuffer
    if buffer.getWriteableSize > content.length then s.write content
    else
      match s.nextBuffer with
      | some next => (s.queue.useNext next).write content
      | none => s.queue.renew.write content
  else return s

def dump (s : AsyncLogger) (content : Bytes) : Except LoggerFault AsyncLogger := do
  let buffer ← s.deref s.currentBuffer
  if buffer.getWriteableSize > content.length then s.write content
  else
    match s.nextBuffer with
    | some next =>
      let buffer ← s.deref next
      if buffer.getSize > content.length then return s.queue
      else (s.queue.useNext next).write content
    | none => s.queue.renew.write content

/-- Every appender writes every one of these buffers, one appender after the other. -/
def jobs (appenders : ℕ) (buffers : List ℕ) : List (ℕ × ℕ) :=
  (List.range (appenders + 1)).flatMap fun appender => buffers.map fun buffer => (appender, buffer)

def output (s : AsyncLogger) (job : ℕ × ℕ) : Except LoggerFault AsyncLogger := do
  let buffer ← s.deref job.2
  return { s with written := Function.update s.written job.1 (s.written job.1 ++ buffer) }

def freeAll (s : AsyncLogger) (ps : List ℕ) : Except LoggerFault AsyncLogger :=
  (s.buffers.freeAll ps).elim (.error .notLive) fun buffers => .ok { s with buffers := buffers }

/-- What the critical section does after it has waited, or need not wait. -/
def swap (s : AsyncLogger) : Except LoggerFault AsyncLogger :=
  match s.buffer1 with
  | none => .error .notLive
  | some buffer1 =>
    let s := { s with
      currentBuffer := buffer1
      buffer1 := none
      buffer2_write := s.buffer2Ready ++ [s.currentBuffer]
      buffer2Ready := s.buffer2_write
      place := .swapped }
    match s.nextBuffer with
    | none => .ok { s with nextBuffer := s.buffer2, buffer2 := none }
    | some _ => .ok s

/-- Of more buffers than the limit the first two stay, the others are freed. -/
def trim (limit : ℕ) (s : AsyncLogger) : Except LoggerFault AsyncLogger :=
  if s.buffer2_write.length > limit then do
    let s ← s.freeAll (s.buffer2_write.drop 2)
    return { s with buffer2_write := s.buffer2_write.take 2 }
  else .ok s

/-- The last buffer that was written is taken and reset. -/
def popBack (s : AsyncLogger) : Except LoggerFault (ℕ × AsyncLogger) :=
  match s.buffer2_write.getLast? with
  | none => .error .emptyVector
  | some p => do
    let _ ← s.deref p
    return (p, { s with
      buffer2_write := s.buffer2_write.dropLast
      buffers := s.buffers.set p [] })

def takeBuffer1 (s : AsyncLogger) : Except LoggerFault AsyncLogger :=
  match s.buffer1 with
  | some _ => .ok s
  | none => do
    let (p, s) ← s.popBack
    return { s with buffer1 := some p }

def takeBuffer2 (s : AsyncLogger) : Except LoggerFault AsyncLogger :=
  match s.buffer2 with
  | some _ => .ok s
  | none => do
    let (p, s) ← s.popBack
    return { s with buffer2 := some p }

/-- From the end of the output to the end of the round. -/
def recycle (s : AsyncLogger) : Except LoggerFault AsyncLogger := do
  let s ← s.trim 2
  let s ← s.takeBuffer1
  let s ← s.takeBuffer2
  return { s with buffer2_write := [], place := .check }

/-- One step of the thread, with so many appenders besides the built-in one. -/
def loop (appenders : ℕ) (s : AsyncLogger) : Except LoggerFault AsyncLogger :=
  match s.place with
  | .enter =>
    .ok { s with
      buffers := (s.buffers.alloc []).alloc []
      buffer1 := some s.buffers.fresh
      buffer2 := some (s.buffers.fresh + 1)
      place := .check }
  | .check =>
    if s.isShutdown then .ok { s with place := .flush (jobs appenders s.buffer2Ready) }
    else .ok { s with place := .lock }
  | .lock => if s.buffer2Ready = [] then .ok { s with place := .wait } else s.swap
  | .wait => s.swap
  | .swapped => do
    let s ← s.trim 25
    return { s with place := .writing (jobs appenders s.buffer2_write) }
  | .writing (job :: todo) => { s with place := .writing todo }.output job
  | .writing [] => .ok { s with place := .recycle }
  | .recycle => s.recycle
  | .flush (job :: todo) => { s with place := .flush todo }.output job
  | .flush [] => do
    let s ← s.freeAll s.buffer2Ready
    let s ← { s with buffer2Ready := [] }.freeAll (s.buffer1.toList ++ s.buffer2.toList)
    return { s with place := .left, buffer1 := none, buffer2 := none }
  | .left | .gone => .error .notRunning

inductive LoggerEvent
  | log (level : Level) (content : Bytes)
  | dump (content : Bytes)
  | loop
  | shutdown -- the first half of the destructor
  | destroy -- its second half, after the thread

def step (builtInLevel : Level) (appenders : ℕ) (s : AsyncLogger) :
    LoggerEvent → Except LoggerFault AsyncLogger
  | .log level content => s.log builtInLevel level content
  | .dump content => s.dump content
  | .loop => s.loop appenders
  | .shutdown => .ok { s with isShutdown := true }
  | .destroy => do
    let s ← s.freeAll (s.currentBuffer :: s.nextBuffer.toList)
    return { s with place := .gone }

/-- What a call hands over to be written. -/
def record (builtInLevel : Level) : LoggerEvent → Bytes
  | .log level content => if builtInLevel.number ≤ level.number then content else []
  | .dump content => content
  | .loop | .shutdown | .destroy => []

/-- What the calls have handed over, in order. -/
def accepted (builtInLevel : Level) (es : List LoggerEvent) : Bytes := es.flatMap (record builtInLevel)

/-- What can happen: calls before the destructor with records that are shorter than a buffer, the
steps of a thread that has not ended, and each half of the destructor at its time. No more than 25
buffers are in the queue that the thread takes. -/
def Possible (s : AsyncLogger) : LoggerEvent → Prop
  | .log _ content => s.isShutdown = false ∧ content.length < RECORD_BUFFER_SIZE
  | .dump content => s.isShutdown = false ∧ content.length < RECORD_BUFFER_SIZE
  | .loop => s.place ≠ .left ∧ s.place ≠ .gone ∧ (s.place = .swapped → s.buffer2_write.length ≤ 25)
  | .shutdown => s.isShutdown = false
  | .destroy => s.isShutdown ∧ s.place = .left

/-- A dump that has no room is not made while there is a spare buffer, and the thread does not end
while there is something in the current buffer. -/
def Harmless (s : AsyncLogger) : LoggerEvent → Prop
  | .dump content => s.nextBuffer = none ∨
      ∀ buffer, s.deref s.currentBuffer = .ok buffer → content.length < buffer.getWriteableSize
  | .loop => s.place = .check → s.isShutdown → s.deref s.currentBuffer = .ok []
  | _ => True

end AsyncLogger
end Sese
