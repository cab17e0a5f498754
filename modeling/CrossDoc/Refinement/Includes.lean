import CrossDoc.Decl.Comment
import CrossDoc.Run.Context

/-!
# Include files

An include file documents modules and packages.  It consists of sections, each
a header line `# Module name` or `# Package name` and the text below it.  What
stands before the first header belongs to no section.
-/

namespace CrossDoc

inductive SectionKind where
  | module
  | package
deriving DecidableEq, Repr, Inhabited

/-- One section of an include file. -/
structure IncludeSection where
  kind : SectionKind
  name : Text
  text : Text
deriving DecidableEq, Repr, Inhabited

namespace IncludeSection

/-- What may follow the word of a header: nothing, or a blank and the name. -/
def headerName? (rest : Text) : Option Text :=
  match rest with
  | [] => some []
  | c :: _ => if Text.isBlank c then some (Text.trim rest) else none

/-- The kind and the name of a header line. -/
def header? (line : Text) : Option (SectionKind × Text) :=
  match Text.dropPrefix? "# Module" line with
  | some rest => (headerName? rest).map fun name => (.module, name)
  | none =>
      (Text.dropPrefix? "# Package" line).bind fun rest =>
        (headerName? rest).map fun name => (.package, name)

/-- The lines before the first header, and the sections. -/
def split : List Text → List Text × List IncludeSection
  | [] => ([], [])
  | line :: rest =>
      let (body, sections) := split rest
      match header? line with
      | some (kind, name) => ([], ⟨kind, name, Text.trim (Text.unlines body)⟩ :: sections)
      | none => (line :: body, sections)

/-- The sections of an include file. -/
def parse (t : Text) : List IncludeSection := (split (Text.lines t)).2

end IncludeSection

namespace DocModule

/-- Stores a comment in the module facts of a platform. -/
def applyModuleSection (p : Platform) (text : Text) (m : DocModule) : DocModule :=
  { m with facts := m.facts.set p (((m.facts.find? p).getD {}).applyComment text) }

/-- Stores a comment in the facts of a platform, for all packages of a
name. -/
def applyPackageSection (p : Platform) (name text : Text) (m : DocModule) : DocModule :=
  { m with
    packages := m.packages.map fun d =>
      if d.name = name then
        { d with facts := d.facts.map fun q f => if q = p then f.applyComment text else f }
      else d }

/-- A module section applies to this module if it names it or no module. -/
def matchesSection (m : DocModule) (s : IncludeSection) : Bool :=
  match s.kind with
  | .module => s.name.isEmpty || s.name == m.name
  | .package => m.packages.any fun d => d.name == s.name

/-- Stores a section that applies. -/
def applySection (p : Platform) (s : IncludeSection) (m : DocModule) : DocModule :=
  if m.matchesSection s then
    match s.kind with
    | .module => m.applyModuleSection p s.text
    | .package => m.applyPackageSection p s.name s.text
  else m

/-- What is said about a section that does not apply. -/
def sectionMismatch (path : Text) (s : IncludeSection) (m : DocModule) : Text :=
  match s.kind with
  | .module =>
      path ++ ": module section '" ++ s.name ++ "' does not match module '" ++ m.name ++ "'"
  | .package => path ++ ": package '" ++ s.name ++ "' is not documented"

/-- Applies sections one after the other and reports those that do not
apply. -/
def applySections (p : Platform) (path : Text) :
    DocModule → List IncludeSection → Traced DocModule
  | m, [] => pure m
  | m, s :: rest => do
      if !m.matchesSection s then
        Traced.log .debug "transform" (m.sectionMismatch path s)
      applySections p path (m.applySection p s) rest

def unreadableInclude (p : Platform) (path : Text) : Fault :=
  .failed (.ofStage []
    ("cannot read include file '" ++ path ++ "' of " ++ p.displayName))

/-- Applies the include files of one pass. -/
def applyIncludes (disk : Disk) (p : Platform) :
    DocModule → List Text → ExceptT Fault Traced DocModule
  | m, [] => pure m
  | m, path :: rest => do
      match disk.read? path with
      | none => throw (unreadableInclude p path)
      | some text =>
          let m ← applySections p path m (IncludeSection.parse text)
          applyIncludes disk p m rest

/-- Applies the include files of all passes. -/
def applyAllIncludes (disk : Disk) :
    DocModule → List AnalyzedPass → ExceptT Fault Traced DocModule
  | m, [] => pure m
  | m, a :: rest => do
      applyAllIncludes disk (← applyIncludes disk a.platform m a.pass.includes) rest

end DocModule

end CrossDoc
