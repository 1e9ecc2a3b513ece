import Daftari.Access.PathsProofs

/-! # Vault paths — the file a text names

    `resolveVaultPath` takes the text a caller wrote to the one canonical path of the file it names.
    Two confinement tests stand on the way: one on the text alone, one after every link on the way
    has been followed.

    * `realpathConfined`: the longest existing ancestor, and the rest re-attached. -/

namespace Storage

open Rbac

/-! ## Following links -/

/-- What `realpathSync` answers: a real path, `ENOENT`, or another error. -/
inductive Realpath where
  | real (segs : List Path)
  | missing
  | failed

/-- A file system by the answers of `realpathSync`, to paths given by segments. -/
abbrev FileSystem := List Path → Realpath

/-- The loop of `realpathConfined`: what is left of the path, last segment first, and
    the tail that is missing. -/
def realpathFrom (fs : FileSystem) : List Path → List Path → Option (List Path)
  | current, tail =>
      match fs current.reverse with
      | .real segs => some (segs ++ tail)
      | .failed => none
      | .missing =>
          match current with
          | [] => none
          | seg :: parent => realpathFrom fs parent (seg :: tail)

def realpathConfined (fs : FileSystem) (segs : List Path) : Option (List Path) :=
  realpathFrom fs segs.reverse []

/-! ## resolveVaultPath -/

/-- `relative(from, to)`, of two absolute paths. -/
def relative (a b : List Path) : Path :=
  joinSegments (List.replicate (a.length - sharedLength a b) ['.', '.']
    ++ b.drop (sharedLength a b))

/-- `rel === "" || rel.startsWith("..") || isAbsolute(rel)`. -/
def leavesRoot (rel : Path) : Bool :=
  rel = [] || ['.', '.'].isPrefixOf rel || rel.head? = some '/'

/-- `resolveVaultPath`: the canonical vault-relative path. -/
def resolveVaultPath (fs : FileSystem) (root : List Path) (relativePath : String) :
    Except String String :=
  let escapes := "path escapes vault root: " ++ relativePath
  let target := resolved root relativePath.toList
  if leavesRoot (relative root target) then .error escapes
  else
    match realpathConfined fs root, realpathConfined fs target with
    | some realRoot, some realTarget =>
        if leavesRoot (relative realRoot realTarget) then .error escapes
        else .ok (String.ofList (relative realRoot realTarget))
    | _, _ => .error escapes

/-! ## Where nothing is linked -/

def plainFiles : FileSystem := .real

end Storage
