import CrossDoc.Files.Path

/-!
# The files a run sees

A `Disk` is what the working directory holds, a finite tree of directories
and files.  A *place* is the list of names that leads to an entry.  Path texts
are resolved against the tree name by name, so `a/../b` exists only if the
directory `a` does.

The directories above the working directory are part of the same tree: each
directory on the way up is kept under the name `..`, and the root directory
under the name `/`.  Neither is a name a path can ask for as such.

Writing returns the changed disk, and every operation that can fail says why.
-/

namespace CrossDoc

/-- What a directory holds, each entry with its name. -/
inductive Entries where
  | empty
  | file (name content : Text) (rest : Entries)
  | directory (name : Text) (within rest : Entries)
deriving DecidableEq, Repr, Inhabited

/-- What stands at a place. -/
inductive Entry where
  | file (content : Text)
  | directory (within : Entries)
deriving DecidableEq, Repr, Inhabited

/-- The names that lead to an entry. -/
abbrev Place := List Text

namespace Entries

/-- The entry of a name. -/
def find? (name : Text) : Entries → Option Entry
  | .empty => none
  | .file n content rest => if n = name then some (.file content) else rest.find? name
  | .directory n within rest => if n = name then some (.directory within) else rest.find? name

/-- Puts an entry in front of others. -/
def cons (name : Text) : Entry → Entries → Entries
  | .file content, rest => .file name content rest
  | .directory within, rest => .directory name within rest

/-- Replaces the entry of a name, or adds it at the end. -/
def set (name : Text) (entry : Entry) : Entries → Entries
  | .empty => cons name entry .empty
  | .file n content rest =>
      if n = name then cons name entry rest else .file n content (rest.set name entry)
  | .directory n within rest =>
      if n = name then cons name entry rest else .directory n within (rest.set name entry)

/-- The entries of a directory of that name; none if there is no such
directory. -/
def within (name : Text) (es : Entries) : Entries :=
  match es.find? name with
  | some (.directory within) => within
  | _ => .empty

/-- Replaces the entry at a place, or adds it. -/
def put (entry : Entry) : Place → Entries → Entries
  | [], es => es
  | [name], es => es.set name entry
  | name :: place, es => es.set name (.directory ((es.within name).put entry place))

/-- The places of all files, with their contents. -/
def files : Entries → List (Place × Text)
  | .empty => []
  | .file n content rest => ([n], content) :: rest.files
  | .directory n within rest => (within.files.map fun f => (n :: f.1, f.2)) ++ rest.files

end Entries

/-- The entries of the working directory. -/
structure Disk where
  entries : Entries := .empty
deriving DecidableEq, Repr, Inhabited

/-- Why a file operation fails. -/
inductive FileError where
  | notFound
  | notDirectory
  | isDirectory
  | alreadyExists
  | invalidArgument
  | nameTooLong
deriving DecidableEq, Repr, Inhabited

namespace FileError

def message : FileError → Text
  | .notFound => "No such file or directory"
  | .notDirectory => "Not a directory"
  | .isDirectory => "Is a directory"
  | .alreadyExists => "File exists"
  | .invalidArgument => "Invalid argument"
  | .nameTooLong => "File name too long"

/-- Looking up a path failed because nothing is there. -/
def isMissing : FileError → Bool
  | .notFound | .notDirectory => true
  | _ => false

end FileError

namespace Disk

/-! ## Resolving paths -/

/-- The name of the root directory. -/
def root : Text := [Path.slash]

/-- The name leads out of the working directory. -/
def leadsOut (name : Text) : Bool := name == root || name == Path.dotDot

/-- The longest name an entry may have. -/
def maxNameLength : Nat := 255

/-- The longest path that can be looked up. -/
def maxPathLength : Nat := 4095

/-- The way to a place: its names, the last one first, with what stands there.
Only the last name may be that of nothing. -/
abbrev Trail := List (Text × Option Entry)

namespace Trail

def place (t : Trail) : Place := (t.map Prod.fst).reverse

/-- What stands at the end of a trail. -/
def entry? (d : Disk) : Trail → Option Entry
  | [] => some (.directory d.entries)
  | step :: _ => step.2

/-- From a directory that holds `es` to the one above it.  The root directory
is above itself. -/
def up (es : Entries) : Trail → Trail
  | [] => [(Path.dotDot, some (.directory (es.within Path.dotDot)))]
  | step :: trail =>
      if step.1 = root then step :: trail
      else if step.1 = Path.dotDot then
        (Path.dotDot, some (.directory (es.within Path.dotDot))) :: step :: trail
      else trail

end Trail

/-- Follows names.  Every name but the last has to be that of a directory. -/
def walk (d : Disk) : Trail → List Text → Except FileError Trail
  | trail, [] => .ok trail
  | trail, name :: rest =>
      match trail.entry? d with
      | none => .error .notFound
      | some (.file _) => .error .notDirectory
      | some (.directory es) =>
          if name = Path.dot then d.walk trail rest
          else if name = Path.dotDot then d.walk (trail.up es) rest
          else if maxNameLength < name.length then .error .nameTooLong
          else d.walk ((name, es.find? name) :: trail) rest

/-- Follows names from the root directory or from the working directory. -/
def walkFrom (d : Disk) (absolute : Bool) (names : List Text) : Except FileError Trail :=
  d.walk (if absolute then [(root, some (.directory (d.entries.within root)))] else []) names

/-- The part of a path that is looked up. -/
def lookedUp (path : Text) : Except FileError Text :=
  let p := Text.untilNul path
  if p.isEmpty then .error .notFound
  else if maxPathLength < p.length then .error .nameTooLong
  else .ok p

/-- Where a path leads.  A path that ends with a slash has to be that of a
directory if it exists. -/
def resolve (d : Disk) (path : Text) : Except FileError Trail := do
  let p ← lookedUp path
  d.walkFrom (Path.isAbsolute p) (Path.names p ++ if Path.endsWithSlash p then [Path.dot] else [])

/-- The place and entry of a path that exists. -/
def status (d : Disk) (path : Text) : Except FileError (Place × Entry) := do
  let trail ← d.resolve path
  match trail.entry? d with
  | none => .error .notFound
  | some entry => return (trail.place, entry)

/-- The place and entry of a path, if it exists.  A path for which that cannot
be told is an error. -/
def probe (d : Disk) (path : Text) : Except FileError (Option (Place × Entry)) :=
  match d.status path with
  | .ok found => .ok (some found)
  | .error e => if e.isMissing then .ok none else .error e

def isFile (d : Disk) (path : Text) : Bool :=
  match d.status path with
  | .ok (_, .file _) => true
  | _ => false

def isDirectory (d : Disk) (path : Text) : Bool :=
  match d.status path with
  | .ok (_, .directory _) => true
  | _ => false

/-! ## Reading -/

/-- The content of a file.  A directory can be opened and is read as empty. -/
def read? (d : Disk) (path : Text) : Option Text :=
  match d.status path with
  | .ok (_, .file content) => some content
  | .ok (_, .directory _) => some []
  | .error _ => none

/-- The path of a place. -/
def pathOf : Place → Text
  | ['/'] :: rest => Path.slash :: Text.join [Path.slash] rest
  | place => Text.join [Path.slash] place

/-- A place is that of an entry below the directory it starts from. -/
def isInside (place : Place) : Bool := !(place.head?.any leadsOut)

/-- The paths of all files below a directory, each the path of the directory
followed by the names below it. -/
def filesBelow (d : Disk) (path : Text) : List Text :=
  match d.status path with
  | .ok (_, .directory within) =>
      (within.files.filter fun f => isInside f.1).map fun f => Path.append path (pathOf f.1)
  | _ => []

/-- All files with their contents, by path, those outside of the working
directory as well. -/
def allFiles (d : Disk) : List (Text × Text) := d.entries.files.map fun f => (pathOf f.1, f.2)

/-- The files below the working directory with their contents, by path. -/
def files (d : Disk) : List (Text × Text) :=
  (d.entries.files.filter fun f => isInside f.1).map fun f => (pathOf f.1, f.2)

/-! ## Writing -/

/-- Replaces the entry at a place, or adds it. -/
def put (d : Disk) (place : Place) (entry : Entry) : Disk := ⟨d.entries.put entry place⟩

/-- The place a file may be written to, and the content it has. -/
def fileTarget (d : Disk) (path : Text) : Except FileError (Place × Text) := do
  let trail ← d.resolve path
  match trail.entry? d with
  | some (.directory _) => .error .isDirectory
  | some (.file content) => return (trail.place, content)
  | none => return (trail.place, [])

/-- Replaces the content of a file, or creates it. -/
def write (d : Disk) (path content : Text) : Except FileError Disk :=
  (d.fileTarget path).map fun t => d.put t.1 (.file content)

/-- Adds to the end of a file, or creates it. -/
def append (d : Disk) (path content : Text) : Except FileError Disk :=
  (d.fileTarget path).map fun t => d.put t.1 (.file (t.2 ++ content))

/-- Creates one directory in a directory that exists. -/
def createDirectory (d : Disk) (path : Text) : Except FileError Disk := do
  let p ← lookedUp path
  let names := Path.names p
  let trail ← d.walkFrom (Path.isAbsolute p) (names.dropLast ++ [Path.dot])
  let name := names.getLast?.getD Path.dot
  if name = Path.dot ∨ name = Path.dotDot then .error .alreadyExists
  else
    let trail ← d.walk trail [name]
    match trail.entry? d with
    | some _ => .error .alreadyExists
    | none => return d.put trail.place (.directory .empty)

/-- Creates one directory after the other, up to the first that fails.  One
that is there already is left as it is. -/
def createEach : Disk → List Text → Except FileError Unit × Disk
  | d, [] => (.ok (), d)
  | d, path :: rest =>
      match d.createDirectory path with
      | .ok d => createEach d rest
      | .error .alreadyExists =>
          if d.isDirectory path then createEach d rest else (.error .alreadyExists, d)
      | .error e => (.error e, d)

/-- The most directories that are created at once. -/
def maxMissing : Nat := 1000

/-- Of a path that does not exist and the paths above it, those to create, the
outermost first; `found` of them are known to be missing, and at most `steps`
further ones are looked at.  A path that ends with `.` or `..` is nothing to
create. -/
def missing (d : Disk) : (steps : Nat) → Text → (found : List Text) → (count : Nat) →
    Except FileError (List Text)
  | 0, _, found, _ => .ok found
  | steps + 1, path, found, count =>
      let name := Path.fileName path
      let create := name != Path.dot && name != Path.dotDot
      let found := if create then path :: found else found
      let count := if create then count + 1 else count
      let up := Path.parent path
      if maxMissing < count then .error .nameTooLong
      else if up.isEmpty then .ok found
      else match d.probe up with
        | .error e => .error e
        | .ok none => d.missing steps up found count
        | .ok (some (_, .file _)) => .error .notDirectory
        | .ok (some (_, .directory _)) => .ok found

/-- Creates a directory and all its parents.  If that fails, the directories
created before stay. -/
def createDirectories (d : Disk) (path : Text) : Except FileError Unit × Disk :=
  if path.isEmpty then (.error .invalidArgument, d)
  else match d.probe path with
    | .error e => (.error e, d)
    | .ok (some (_, .directory _)) => (.ok (), d)
    | .ok (some (_, .file _)) => (.error .notDirectory, d)
    | .ok none =>
        match d.missing path.length (Path.dropEndSlashes path) [] 0 with
        | .error e => (.error e, d)
        | .ok paths => d.createEach paths

/-- Copies a file over another one or to a new one. -/
def copy (d : Disk) (source target : Text) : Except FileError Disk := do
  let old ← d.probe target
  match ← d.status source with
  | (_, .directory _) => .error .invalidArgument
  | (origin, .file content) =>
      match old with
      | some (_, .directory _) => .error .invalidArgument
      | some (place, .file _) =>
          if place = origin then .error .alreadyExists
          else return d.put place (.file content)
      | none => d.write target content

/-! ## Building a disk -/

/-- Puts a file of some content, or a directory if there is none, at a path,
and creates the directories above it. -/
def install (d : Disk) (path : Text) : Option Text → Disk
  | none => (d.createDirectories path).2
  | some content =>
      let up := Path.parent path
      let d := if up.isEmpty then d else (d.createDirectories up).2
      (d.write path content).toOption.getD d

def ofList (files : List (Text × Option Text)) : Disk :=
  files.foldl (fun d f => d.install f.1 f.2) {}

end Disk

end CrossDoc
