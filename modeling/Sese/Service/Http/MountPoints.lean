import Sese.Foundation.LexicalPath
import Sese.Service.Http.HttpServiceImpl

/-!
# Files below mount points

The name of a file is the local path of a mount point, a slash, and what is left of the
decoded URI. No component of it is looked at, so a URI may climb out of the directory
with `..`, written as it is or percent-encoded. `mountedFile_inside_iff` says for which
URIs the name stays inside.
-/
namespace Sese.Service.Http

open Foundation Sese.Net.Http

def toMove (component : Bytes) : Move Bytes :=
  if component = [] ∨ component = bytes "." then .stay
  else if component = bytes ".." then .up
  else .down component

def moves (path : Bytes) : List (Move Bytes) := (path.splitOn 47).map toMove

def isAbsolute (path : Bytes) : Bool := path.head? = some 47

/-- `path::lexically_normal`, as a place relative to the root or to the working
directory. -/
def lexicallyNormal (path : Bytes) : Place Bytes := Place.normal (isAbsolute path) (moves path)

def Inside (dir file : Bytes) : Prop :=
  isAbsolute file = isAbsolute dir ∧ (lexicallyNormal dir).Below (lexicallyNormal file)

instance (dir file : Bytes) : Decidable (Inside dir file) := inferInstanceAs (Decidable (_ ∧ _))

/-- What is left of a URI comes back into a directory: resolved by itself, it climbs some
levels, none in the usual case, and then goes down through the last components of the
directory's name, as many as it has climbed. It does not climb above a relative
directory's name. -/
def Returns (dir rest : Bytes) : Prop :=
  let place := Place.normal false (moves rest)
  let names := (lexicallyNormal dir).names
  (isAbsolute dir ∨ place.ups ≤ names.length) ∧
    names.drop (names.length - place.ups) <+: place.names

instance (dir rest : Bytes) : Decidable (Returns dir rest) := inferInstanceAs (Decidable (_ ∧ _))

theorem moves_join (dir rest : Bytes) :
    moves (dir ++ bytes "/" ++ rest) = moves dir ++ moves rest := by
  have hslash : bytes "/" = [47] := by decide +kernel
  unfold moves
  rw [hslash, List.append_assoc, List.singleton_append, List.splitOn_append_cons_self,
    List.map_append]

theorem isAbsolute_join {dir : Bytes} (hdir : dir ≠ []) (rest : Bytes) :
    isAbsolute (dir ++ rest) = isAbsolute dir := by
  cases dir with
  | nil => exact absurd rfl hdir
  | cons b dir => rfl

theorem inside_join_iff {dir : Bytes} (hdir : dir ≠ []) (rest : Bytes) :
    Inside dir (dir ++ bytes "/" ++ rest) ↔ Returns dir rest := by
  have habsolute : isAbsolute (dir ++ bytes "/" ++ rest) = isAbsolute dir := by
    rw [List.append_assoc]
    exact isAbsolute_join hdir _
  have hnormal : lexicallyNormal (dir ++ bytes "/" ++ rest) =
      Place.walk (isAbsolute dir) (lexicallyNormal dir) (moves rest) := by
    unfold lexicallyNormal Place.normal
    rw [habsolute, moves_join, Place.walk_append]
  unfold Inside Returns
  rw [habsolute, hnormal]
  dsimp only
  rw [Place.below_walk_iff]
  exact and_iff_right rfl

namespace HttpServiceImpl

/-- The file that `handleRequest` looks for is inside the directory of the mount point
that it has selected exactly when what is left of the URI comes back into that
directory. The name is never inside when the local path is empty: the slash then makes
it absolute. -/
theorem mountedFile_inside_iff (serv : HttpServiceImpl) (h : Handleable) :
    ∀ m ∈ serv.mounted h, (Inside m.2 (mountedFile m h.request.uri) ↔
      m.2 ≠ [] ∧ Returns m.2 (h.request.uri.drop m.1.length)) := by
  intro m _
  unfold mountedFile
  by_cases hempty : m.2 = []
  · have hno : ¬ Inside m.2 (m.2 ++ bytes "/" ++ h.request.uri.drop m.1.length) := by
      rw [hempty]
      rintro ⟨habsolute, -⟩
      cases habsolute
    exact iff_of_false hno fun hreturns => hreturns.1 hempty
  · rw [inside_join_iff hempty]
    exact (and_iff_right hempty).symm

def urlRequest (url : String) : Handleable := { request := { url := bytes url } }

/-- The URI leaves the directory with a percent-encoded `..` and comes back into it. -/
theorem mountedFile_inside_returning :
    (bytes "/static/", bytes "/srv") ∈ fileService.mounted (urlRequest "/static/%2e%2E/srv/f") ∧
      Inside (bytes "/srv") (bytes "/srv/../srv/f") := by
  have hmounted : (bytes "/static/", bytes "/srv") ∈
      fileService.mounted (urlRequest "/static/%2e%2E/srv/f") := by decide +kernel
  have hfile : mountedFile (bytes "/static/", bytes "/srv")
      (urlRequest "/static/%2e%2E/srv/f").request.uri = bytes "/srv/../srv/f" := by decide +kernel
  have hinside := (mountedFile_inside_iff fileService _ _ hmounted).mpr (by decide +kernel)
  rw [hfile] at hinside
  exact ⟨hmounted, hinside⟩

/-- The URI leads to `/etc/passwd`. -/
theorem mountedFile_outside :
    (bytes "/static/", bytes "/srv") ∈
        fileService.mounted (urlRequest "/static/%2e%2e/etc/passwd") ∧
      mountedFile (bytes "/static/", bytes "/srv")
        (urlRequest "/static/%2e%2e/etc/passwd").request.uri = bytes "/srv/../etc/passwd" ∧
      ¬ Inside (bytes "/srv") (bytes "/srv/../etc/passwd") := by
  decide +kernel

end HttpServiceImpl
end Sese.Service.Http
