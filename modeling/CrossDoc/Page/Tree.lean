import CrossDoc.Page.Content

/-!
# Page trees

A `PageTree` has a root page and, below it, pages with pages below them.
`PageTree.walk` lists the pages in depth-first order, each with the names of
the pages above it; the root counts neither as a page nor as an ancestor.
-/

namespace CrossDoc

inductive PageKind where
  /-- Documents a package or a class. -/
  | content
  /-- Is written or copied as it is. -/
  | rendererSpecific
  /-- Lists modules. -/
  | multiModule
  /-- Gathers links. -/
  | grouped
deriving DecidableEq, Repr, Inhabited

def PageKind.name : PageKind → Text
  | .content => "content"
  | .rendererSpecific => "renderer_specific"
  | .multiModule => "multi_module"
  | .grouped => "grouped"

inductive StrategyKind where
  /-- The payload is the content of the file. -/
  | write
  /-- The payload is the path of the file to copy. -/
  | copy
  | nothing
deriving DecidableEq, Repr, Inhabited

def StrategyKind.name : StrategyKind → Text
  | .write => "write"
  | .copy => "copy"
  | .nothing => "nothing"

/-- How the file of a page that is not content comes about. -/
structure Strategy where
  kind : StrategyKind := .nothing
  payload : Text := []
deriving DecidableEq, Repr, Inhabited

/-- A page with the pages below it. -/
structure Page where
  kind : PageKind := .content
  name : Text := []
  /-- The declarations the page documents. -/
  ids : List DeclId := []
  platforms : List Platform := []
  content : Content := {}
  children : List Page := []
  /-- The path of a page that is not content, from the output directory. -/
  targetPath : Text := []
  strategy : Strategy := {}
deriving Repr, Inhabited

/-- The root page and all pages below it. -/
structure PageTree where
  name : Text := []
  platforms : List Platform := []
  content : Content := {}
  children : List Page := []
deriving Repr, Inhabited

namespace Page

mutual

/-- A page and all below it, each with the names of the pages above it. -/
def walk (above : List Text) : Page → List (Page × List Text)
  | ⟨kind, name, ids, platforms, content, children, targetPath, strategy⟩ =>
      (⟨kind, name, ids, platforms, content, children, targetPath, strategy⟩, above) ::
        walkAll (above ++ [name]) children

def walkAll (above : List Text) : List Page → List (Page × List Text)
  | [] => []
  | p :: rest => p.walk above ++ walkAll above rest

end

/-- The page documents a declaration. -/
def isDocumentation (p : Page) : Bool := p.kind == .content && !p.ids.isEmpty

/-- The declaration that a page is about. -/
def mainId (p : Page) : DeclId := p.ids.head?.getD {}

end Page

namespace PageTree

/-- All pages below the root in depth-first order, each with the names of the
pages above it. -/
def walk (t : PageTree) : List (Page × List Text) := Page.walkAll [] t.children

/-- All pages below the root in depth-first order. -/
def pages (t : PageTree) : List Page := t.walk.map Prod.fst

/-- The number of pages below the root. -/
def count (t : PageTree) : Nat := t.walk.length

/-- The first page that documents a declaration. -/
def find? (t : PageTree) (id : DeclId) : Option Page :=
  t.pages.find? fun p => p.ids.contains id

/-- Adds a page below the root, after those that are there. -/
def addPage (t : PageTree) (p : Page) : PageTree := { t with children := t.children ++ [p] }

end PageTree

end CrossDoc
