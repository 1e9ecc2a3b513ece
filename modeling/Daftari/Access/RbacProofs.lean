import Mathlib.Data.List.Basic
import Mathlib.Tactic.Common

/-! # Scopes — paths, collections and roles

    What a caller may do is decided by two things: the collection a document is
    in, which is its top directory unless its frontmatter declares another, and
    the grants of the caller's role.  A missing role grants nothing. -/

namespace Rbac

/-! ## Paths -/

abbrev Path := List Char

/-- The segments of a path, with `.` and empty ones dropped and `..` resolved;
    a `..` above the start is kept when `above` allows it. -/
def normalSegments (above : Bool) (segments : List Path) : List Path :=
  (segments.foldl
    (fun acc seg =>
      if seg = [] ∨ seg = ['.'] then acc
      else if seg = ['.', '.'] then
        match acc with
        | [] => if above then [seg] else []
        | last :: rest => if last = ['.', '.'] then seg :: acc else rest
      else seg :: acc) []).reverse

def joinSegments (segments : List Path) : Path := List.intercalate ['/'] segments

/-- `posix.normalize` of a path that is not absolute. -/
def normalizeRelative (path : Path) : Path :=
  let body := joinSegments (normalSegments true (path.splitOn '/'))
  let trailing := path.getLast? = some '/'
  if body = [] then if trailing then ['.', '/'] else ['.']
  else if trailing then body ++ ['/'] else body

/-- `posix.normalize`. -/
def normalize (path : Path) : Path :=
  match path with
  | [] => ['.']
  | '/' :: rest =>
      let body := joinSegments (normalSegments false (rest.splitOn '/'))
      if body ≠ [] ∧ rest.getLast? = some '/' then '/' :: body ++ ['/'] else '/' :: body
  | _ => normalizeRelative path

/-- `posix.basename` of a path without a final slash. -/
def basename (path : Path) : Path := (path.splitOn '/').getLast?.getD []

/-- `posix.dirname` of a vault-relative path. -/
def dirname (path : Path) : Path :=
  match (path.splitOn '/').dropLast with
  | [] => ['.']
  | dirs => joinSegments dirs

/-- `posix.join`. -/
def join (a b : Path) : Path :=
  if a = [] then normalize b
  else if b = [] then normalize a
  else normalize (a ++ '/' :: b)

/-- `collectionOfPath`: the top directory, or nothing at the root. -/
def collectionOfPath (relPath : String) : String :=
  match relPath.toList.splitOn '/' with
  | top :: _ :: _ => String.ofList top
  | _ => ""

/-- `relative(root, resolve(root, path))`, for a root given by its segments. -/
def lexicalRelative (root : List Path) (path : Path) : Path :=
  let target := match path with
    | '/' :: rest => normalSegments false (rest.splitOn '/')
    | _ => normalSegments false (root ++ path.splitOn '/')
  let shared := ((root.zip target).takeWhile fun e => e.1 = e.2).length
  joinSegments (List.replicate (root.length - shared) ['.', '.'] ++ target.drop shared)

/-- `targetCollection`: the collection the bytes of a write physically land in. -/
def targetCollection (root : List Path) (path : String) : String :=
  collectionOfPath (String.ofList (lexicalRelative root path.toList))

/-- `isIgnoredVaultPath`; `ignored` is `matchesIgnoreList` over the config. -/
def isIgnoredVaultPath (ignored : String → Bool) (relPath : String) : Bool :=
  (relPath.toList.splitOn '/').any
    (fun seg => seg.head? = some '.' || seg = "node_modules".toList)
  || ignored relPath

/-- Does `listFiles` list the path? -/
def isListed (ignored : String → Bool) (relPath : String) : Bool :=
  ".md".toList.isSuffixOf relPath.toList && !isIgnoredVaultPath ignored relPath

/-! ## Roles -/

structure RoleConfig where
  read : List String
  write : List String
  promote : Bool
  ratify : Bool
  proposeOnly : Bool
deriving DecidableEq

structure AccessContext where
  user : String
  roleName : String
  role : Option RoleConfig
deriving DecidableEq

def permits (list : List String) (collection : String) : Bool :=
  "*" ∈ list ∨ collection ∈ list

def canRead (role : Option RoleConfig) (collection : String) : Bool :=
  role.any fun r => permits r.read collection

def canWrite (role : Option RoleConfig) (collection : String) : Bool :=
  role.any fun r => permits r.write collection

def canPromote (role : Option RoleConfig) : Bool := role.any RoleConfig.promote

def canRatify (role : Option RoleConfig) : Bool := role.any RoleConfig.ratify

def isProposeOnly (role : Option RoleConfig) : Bool := role.any RoleConfig.proposeOnly

end Rbac
