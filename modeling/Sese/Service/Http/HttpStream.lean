import Sese.Net.Http.HttpConverter

/-!
# Streams of an HTTP/2 connection

`Handleable`, the part of a request that the service sees, and `HttpStream`. An
open file is its contents with the read position. An iterator into `ranges` is a
position, the end iterator being `ranges.length`.
-/
namespace Sese.Service.Http

open Sese.Net.Http

inductive ConnType
  | filter | fileDownload | controller | none
  deriving DecidableEq, Repr

/-- An open `io::File`. -/
structure File where
  data : Bytes
  pos : ℕ := 0
  deriving DecidableEq

/-- `File::read`: the octets that are left, at most `n`. -/
def File.read (file : File) (n : ℕ) : Bytes × File :=
  let got := (file.data.drop file.pos).take n
  (got, { file with pos := file.pos + got.length })

structure Handleable where
  connType : ConnType := .none
  request : Request := {}
  response : Response := {}
  contentType : Bytes := bytes "application/x-"
  file : Option File := none
  filesize : ℕ := 0
  ranges : List Range := []
  rangeIterator : ℕ := 0
  keepalive : Bool := false
  deriving DecidableEq

structure HttpStream extends Handleable where
  /-- Write to the peer window size. -/
  endpointWindowSize : ℕ
  /-- Local read window. -/
  windowSize : ℕ := 0
  continueType : UInt8 := 0
  endHeaders : Bool := false
  endStream : Bool := false
  doResponse : Bool := false
  expectLength : ℕ := 0
  realLength : ℕ := 0
  tempBuffer : Bytes := []
  deriving DecidableEq

def HttpStream.prepareRange (s : HttpStream) : Except Fault HttpStream :=
  match s.file, s.ranges[s.rangeIterator]? with
  | some file, some range => .ok { s with
      file := some { file with pos := range.start }
      expectLength := range.len
      realLength := 0
      rangeIterator := s.rangeIterator + 1 }
  | _, _ => .error .nullPointer

end Sese.Service.Http
