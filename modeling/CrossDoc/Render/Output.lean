import CrossDoc.Files.Disk
import CrossDoc.Render.Markdown
import CrossDoc.Trace

/-!
# Writing page trees

A page tree is written by a list of operations: the root page first, then the
pages in depth-first order.  A `Writer` performs them on a state, a directory
of the disk or a set of files in memory.  The first failure ends the writing.
-/

namespace CrossDoc

/-- One step of writing. -/
inductive WriteStep where
  | write (path content : Text)
  /-- Copies the file at `source`. -/
  | copy (source path : Text)
deriving DecidableEq, Repr, Inhabited

namespace PageTree

/-- The step that writes a page; a placeholder needs none. -/
def pageStep? (t : PageTree) (p : Page) (path : Text) : Option WriteStep :=
  if p.kind = .rendererSpecific then
    match p.strategy.kind with
    | .write => some (.write path p.strategy.payload)
    | .copy => some (.copy p.strategy.payload path)
    | .nothing => none
  else some (.write path (p.content.toMarkdown t path))

/-- All steps that write a tree. -/
def steps (t : PageTree) : List WriteStep :=
  .write t.rootPath (t.content.toMarkdown t t.rootPath) ::
    t.pathed.filterMap fun e => t.pageStep? e.1 e.2

end PageTree

/-- Performs steps on a state; a failure has a message. -/
structure Writer (σ : Type) where
  write : Text → Text → σ → Except Text Unit × σ
  copy : Text → Text → σ → Except Text Unit × σ

namespace Writer

variable {σ : Type}

def perform (w : Writer σ) (step : WriteStep) (s : σ) : Except Text Unit × σ :=
  match step with
  | .write path content => w.write path content s
  | .copy source path => w.copy source path s

def report : WriteStep → Traced Unit
  | .write path _ => Traced.log .trace "render" ("wrote " ++ path)
  | .copy _ _ => pure ()

/-- Performs steps up to the first that fails.  Answers their number, where
`count` are done already, and the state after the last one. -/
def performAll (w : Writer σ) (count : Nat) :
    List WriteStep → σ → Traced (Except Text Nat × σ)
  | [], s => pure (.ok count, s)
  | step :: rest, s =>
      match w.perform step s with
      | (.ok (), s) => do
          report step
          performAll w (count + 1) rest s
      | (.error message, s) => pure (.error message, s)

/-- Writes a page tree. -/
def writeTree (w : Writer σ) (t : PageTree) (s : σ) : Traced (Except Text Nat × σ) :=
  w.performAll 0 t.steps s

end Writer

/-! ## Writing to the disk -/

namespace Disk

def cannotCreate (path : Text) (e : FileError) : Text :=
  "cannot create directory '" ++ path ++ "': " ++ e.message

/-- Creates the directory of a file. -/
def prepareParent (d : Disk) (target : Text) : Except Text Unit × Disk :=
  let up := Path.parent target
  if up.isEmpty then (.ok (), d)
  else match d.createDirectories up with
    | (.ok (), d) => (.ok (), d)
    | (.error e, d) => (.error (cannotCreate up e), d)

/-- Writes below a directory, which is created when it is needed. -/
def writer (directory : Text) : Writer Disk where
  write path content d :=
    let target := Path.append directory path
    match d.prepareParent target with
    | (.error message, d) => (.error message, d)
    | (.ok (), d) =>
        match d.write target content with
        | .ok d => (.ok (), d)
        | .error _ => (.error ("cannot open '" ++ target ++ "' for writing"), d)
  copy source path d :=
    let target := Path.append directory path
    match d.prepareParent target with
    | (.error message, d) => (.error message, d)
    | (.ok (), d) =>
        match d.copy source target with
        | .ok d => (.ok (), d)
        | .error e =>
            (.error ("cannot copy '" ++ source ++ "' to '" ++ target ++ "': " ++ e.message), d)

end Disk

/-! ## Writing to memory -/

/-- Files kept in memory by path; copies read their source from a disk. -/
structure MemoryFiles where
  disk : Disk := {}
  files : List (Text × Text) := []
deriving DecidableEq, Repr, Inhabited

namespace MemoryFiles

def find? (m : MemoryFiles) (path : Text) : Option Text :=
  (m.files.find? fun f => f.1 == path).map Prod.snd

def put (m : MemoryFiles) (path content : Text) : MemoryFiles :=
  { m with files := (m.files.filter fun f => f.1 != path) ++ [(path, content)] }

def writer : Writer MemoryFiles where
  write path content m := (.ok (), m.put path content)
  copy source path m :=
    match m.disk.read? source with
    | some content => (.ok (), m.put path content)
    | none => (.error ("cannot read '" ++ source ++ "'"), m)

end MemoryFiles

end CrossDoc
