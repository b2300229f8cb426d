import AsmTidy.Text.Quote

/-!
# The working directory

A run reads and writes files in its working directory. Here the directory is given by the
files it holds, each under its path of names below the directory. A directory exists when
some file lies below it, and the working directory itself always exists.

**Paths.** A path names its steps between slashes, and empty steps are skipped. A path that
starts with a slash starts outside the working directory, and so does `..` taken from the
working directory itself. Nothing outside is known: it holds no files, and a file written
there is not kept.

**Opening.** Every step but the last must be a directory: a missing one is *not found*, and
a file is *not a directory*. Then:

- reading: a file is read, unless the path ends with a slash (*not a directory*); a
  directory, `.` or `..` is *a directory*; a missing name is *not found*;
- writing: a path that ends with a slash, a directory, `.` or `..` is *a directory*;
  otherwise the file is created or replaced.

An empty path is *not found*. A message about a path shows it quoted, as it was written.

**Walking.** A walk from a directory visits every file below it. It visits the files of a
directory, by name, before it walks its directories, by name. Each file is shown as the top
path joined by slashes to the names below it. A walk from anything that is not a directory
visits nothing.
-/

namespace AsmTidy.Cli

open Text

/-- A path below the working directory, as its names. -/
abbrev Path := List String

/-- The files of a working directory, each with its path and its content. -/
structure Workspace where
  files : List (Path × String)
deriving DecidableEq, Repr

/-- What a path below the working directory names. -/
inductive Entry where
  | file (content : String)
  | directory
  | missing
deriving DecidableEq, Repr

/-- Where a path leads: a directory of the working directory, or somewhere outside it. -/
inductive Place where
  | inside (p : Path)
  | outside
deriving DecidableEq, Repr

/-- The directory that holds a place. -/
def Place.parent : Place → Place
  | .inside [] => .outside
  | .inside p => .inside p.dropLast
  | .outside => .outside

/-- Why a file could not be opened, with the path as it was written. -/
inductive OsError where
  | notFound (path : String)
  | isDirectory (path : String)
  | notDirectory (path : String)
deriving DecidableEq, Repr

/-- The message of an error, as the system states it. -/
def OsError.message : OsError → String
  | .notFound p => "[Errno 2] No such file or directory: " ++ String.ofList (quote p.toList)
  | .isDirectory p => "[Errno 21] Is a directory: " ++ String.ofList (quote p.toList)
  | .notDirectory p => "[Errno 20] Not a directory: " ++ String.ofList (quote p.toList)

/-- A path as written: where it starts, its names, and whether it ends with a slash. -/
structure Route where
  absolute : Bool
  names : List String
  trailingSlash : Bool

/-- Read a written path. -/
def Route.parse (raw : String) : Route :=
  ⟨raw.startsWith "/", ((raw.toList.splitOn '/').filter (· ≠ [])).map String.ofList,
    raw.endsWith "/"⟩

/-- Where a route starts. -/
def Route.start (r : Route) : Place := if r.absolute then .outside else .inside []

namespace Workspace

/-- What the path `p` names. -/
def entry (w : Workspace) (p : Path) : Entry :=
  match w.files.lookup p with
  | some content => .file content
  | none => if p.isEmpty || w.files.any (p.isPrefixOf ·.1) then .directory else .missing

/-- Follow names that must each be a directory, from `place`. Errors name the path `raw`. -/
def descend (w : Workspace) (raw : String) : Place → List String → Except OsError Place
  | place, [] => .ok place
  | place, n :: ns =>
    let next : Except OsError Place :=
      if n == "." then .ok place
      else if n == ".." then .ok place.parent
      else match place with
        | .outside => .error (.notFound raw)
        | .inside p =>
          match w.entry (p ++ [n]) with
          | .directory => .ok (.inside (p ++ [n]))
          | .file _ => .error (.notDirectory raw)
          | .missing => .error (.notFound raw)
    match next with
    | .ok place => w.descend raw place ns
    | .error e => .error e

/-- Split a written path into the directory its last name is in, and that name. -/
def locate (w : Workspace) (raw : String) : Except OsError (Place × String) :=
  let r := Route.parse raw
  match r.names.reverse with
  | [] => .error (if raw.isEmpty then .notFound raw else .isDirectory raw)
  | last :: before => (w.descend raw r.start before.reverse).map (·, last)

/-- The content of the file at the path `raw`. -/
def read (w : Workspace) (raw : String) : Except OsError String := do
  let (dir, name) ← w.locate raw
  if name == "." || name == ".." then throw (.isDirectory raw)
  match dir with
  | .outside => throw (.notFound raw)
  | .inside p =>
    match w.entry (p ++ [name]) with
    | .file content =>
      if (Route.parse raw).trailingSlash then throw (.notDirectory raw) else return content
    | .directory => throw (.isDirectory raw)
    | .missing => throw (.notFound raw)

/-- Give the file at `p` the content `content`, creating it if needed. -/
def put (w : Workspace) (p : Path) (content : String) : Workspace :=
  if w.files.any (·.1 == p) then ⟨w.files.map fun f => if f.1 == p then (p, content) else f⟩
  else ⟨w.files ++ [(p, content)]⟩

/-- Write `content` to the file at the path `raw`. -/
def write (w : Workspace) (raw : String) (content : String) : Except OsError Workspace := do
  let (dir, name) ← w.locate raw
  if name == "." || name == ".." || (Route.parse raw).trailingSlash then
    throw (.isDirectory raw)
  match dir with
  | .outside => return w
  | .inside p =>
    match w.entry (p ++ [name]) with
    | .directory => throw (.isDirectory raw)
    | _ => return w.put (p ++ [name]) content

/-- Whether a walk visits the file at the relative path `a` no later than the one at `b`: at
the first step where the paths part, a file comes before a directory, and names are in
order. -/
def walkBefore : Path → Path → Bool
  | [a], [b] => decide (a ≤ b)
  | [_], _ => true
  | _ :: _ :: _, [_] => false
  | a :: as, b :: bs => if a == b then walkBefore as bs else decide (a < b)
  | [], _ => true
  | _ :: _, [] => false

/-- The path a walk from `top` shows for the relative path `rel`. -/
def joinPath (top : String) (rel : Path) : String :=
  top ++ (if top.endsWith "/" then "" else "/") ++ "/".intercalate rel

/-- The files a walk from the path `top` visits, in order, each with its name and the path
it is shown as. -/
def walk (w : Workspace) (top : String) : List (String × String) :=
  if top.isEmpty then []
  else
    let r := Route.parse top
    match w.descend top r.start r.names with
    | .ok (.inside p) =>
      let below := w.files.filterMap fun (q, _) =>
        if p.isPrefixOf q && p.length < q.length then some (q.drop p.length) else none
      (below.mergeSort walkBefore).map fun rel => (rel.getLast?.getD "", joinPath top rel)
    | _ => []

end Workspace

end AsmTidy.Cli
