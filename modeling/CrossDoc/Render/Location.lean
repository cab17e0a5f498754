import CrossDoc.Files.Path
import CrossDoc.Page.Tree

/-!
# Where pages are written

Every page has a path below the output directory.  The first component of all
of them is the directory of the module; a package is a directory in it, a
class a file in the directory of its package.  Names are made safe for file
systems by `slug`.

A link to a declaration leads to the page that documents it or, if it has no
page, to that of the innermost enclosing declaration that has one.
-/

namespace CrossDoc

/-- The characters that a file name keeps. -/
def isSlugChar (c : Char) : Bool := c.isAlphanum || c == '.' || c == '-' || c == '_'

/-- The name as a file name: every other character becomes an underscore, and
so does the empty name. -/
def slug (name : Text) : Text :=
  if name.isEmpty then "_" else name.map fun c => if isSlugChar c then c else '_'

namespace PageTree

/-- The directory of the module. -/
def directory (t : PageTree) : Text := slug t.name

def rootPath (t : PageTree) : Text := t.directory ++ "/index.md"

/-- The path of a page below pages of the given names. -/
def pagePath (t : PageTree) (p : Page) (above : List Text) : Text :=
  if p.kind = .rendererSpecific then p.targetPath
  else if p.isDocumentation then
    match above with
    | [] => t.directory ++ "/" ++ slug p.name ++ "/index.md"
    | package :: inner =>
        t.directory ++ "/" ++ slug package ++ "/" ++
          slug (Text.join "." (inner ++ [p.name])) ++ ".md"
  else t.directory ++ "/" ++ slug (Text.join "." (above ++ [p.name])) ++ ".md"

/-- All pages below the root in depth-first order, each with its path. -/
def pathed (t : PageTree) : List (Page × Text) :=
  t.walk.map fun e => (e.1, t.pagePath e.1 e.2)

/-- The path of the first page that documents a declaration. -/
def pathOf? (t : PageTree) (id : DeclId) : Option Text :=
  (t.pathed.find? fun e => e.1.ids.contains id).map Prod.snd

/-- The path that a link to a declaration leads to. -/
def resolve? (t : PageTree) (id : DeclId) : Option Text := id.lineage.findSome? t.pathOf?

end PageTree

/-- The way from a file to another path; the path itself if there is none. -/
def relativeLink (source target : Text) : Text :=
  match Path.relative? target (Path.parent source) with
  | some way => if way.isEmpty then target else way
  | none => target

end CrossDoc
