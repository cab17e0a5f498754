import CrossDoc.JsonString
import CrossDoc.Page.Tree
import CrossDoc.Trace

/-!
# Pages that list pages

Three additions to a page tree: a navigation page that shows the tree itself,
two index pages that list all types and all declarations by name, and a search
index, which is a JSON file.  Each is added below the root and lists the pages
that document a declaration.
-/

namespace CrossDoc

namespace Page

mutual

/-- The nested list of the pages that document a declaration. -/
def navigationItem : Page → List Content
  | ⟨kind, name, ids, _, _, children, _, _⟩ =>
      match kind, ids with
      | .content, id :: _ =>
          let below := navigationItems children
          let nested := if below.isEmpty then [] else [Content.group below "list"]
          [.group (.linkTo name id :: nested) "item"]
      | _, _ => []

def navigationItems : List Page → List Content
  | [] => []
  | p :: rest => p.navigationItem ++ navigationItems rest

end

/-- A page of links for all platforms of a tree. -/
def ofLinks (name : Text) (t : PageTree) (content : Content) : Page :=
  { kind := .grouped, name := name, platforms := t.platforms, content := content }

end Page

/-! ## Entries of an index -/

/-- What an index says about a page. -/
structure IndexEntry where
  name : Text
  /-- The name of the package of a type, empty for a package. -/
  location : Text
  id : DeclId
deriving DecidableEq, Repr, Inhabited

namespace IndexEntry

/-- By name regardless of case, then by name, then by identity. -/
def order (a b : IndexEntry) : Ordering :=
  ((compare (Text.lower a.name) (Text.lower b.name)).then (compare a.name b.name)).then
    (compare a.id b.id)

def sort (es : List IndexEntry) : List IndexEntry :=
  es.mergeSort fun a b => a.order b != .gt

/-- The upper case first letter of the name; a sharp if there is none. -/
def letter (e : IndexEntry) : Char := (e.name.head?.getD '#').toUpper

def row (e : IndexEntry) : Content :=
  { kind := .row, children := [.linkTo e.name e.id, .paragraph e.location] }

def table (location : Text) (es : List IndexEntry) : Content :=
  .table ["Name", location] (es.map row)

end IndexEntry

namespace PageTree

/-- The pages that document a declaration, with the names of those above. -/
def documentation (t : PageTree) : List (Page × List Text) :=
  t.walk.filter fun e => e.1.isDocumentation

/-- The names between the package and the page, and its own, with dots. -/
def qualifiedName (above : List Text) (name : Text) : Text :=
  Text.join "." (above.drop 1 ++ [name])

/-- The entry of a type under its qualified name; packages have none. -/
def typeEntry? (e : Page × List Text) : Option IndexEntry :=
  match e.2 with
  | [] => none
  | package :: _ => some ⟨qualifiedName e.2 e.1.name, package, e.1.mainId⟩

/-- The entry of a package or type under its own name. -/
def nameEntry (e : Page × List Text) : IndexEntry :=
  ⟨e.1.name, e.2.head?.getD [], e.1.mainId⟩

def typeEntries (t : PageTree) : List IndexEntry :=
  IndexEntry.sort (t.documentation.filterMap typeEntry?)

def nameEntries (t : PageTree) : List IndexEntry :=
  IndexEntry.sort (t.documentation.map nameEntry)

/-! ## Navigation -/

def navigationName : Text := "navigation"

def navigationPage (t : PageTree) : Page :=
  .ofLinks navigationName t
    (.group [.header 1 t.name, .group (Page.navigationItems t.children) "list"] [])

/-! ## Index pages -/

def allTypesName : Text := "alltypes"

def allTypesPage (t : PageTree) : Page :=
  let types := t.typeEntries
  let listing := if types.isEmpty then [] else [IndexEntry.table "Package" types]
  .ofLinks allTypesName t (.group (.header 1 "All Types" :: listing) [])

def alphabeticalIndexName : Text := "alphabetical-index"

/-- The entries of one letter under it. -/
def letterSection (es : List IndexEntry) : List Content :=
  match es with
  | [] => []
  | e :: _ => [.header 2 [e.letter], IndexEntry.table "Location" es]

def alphabeticalIndexPage (t : PageTree) : Page :=
  let runs := t.nameEntries.splitBy fun a b => a.letter == b.letter
  .ofLinks alphabeticalIndexName t
    (.group (.header 1 "Index" :: runs.flatMap letterSection) [])

/-! ## Search index -/

def searchIndexName : Text := "search-index.json"

/-- The line of a page in the search index. -/
def searchLine (p : Page) : Text :=
  "\n  \x7b\"name\": " ++ JsonString.quoted p.name ++ ", \"dri\": " ++
    JsonString.quoted p.mainId.toText ++ ", \"platforms\": [" ++
    Text.join ", " (p.platforms.map fun q => JsonString.quoted q.displayName) ++ "]\x7d"

/-- The search index: an array with one object per page. -/
def searchIndex (t : PageTree) : Text :=
  let ls := t.documentation.map fun e => searchLine e.1
  "[" ++ Text.join "," ls ++ (if ls.isEmpty then "]\n" else "\n]\n")

def searchIndexPage (t : PageTree) : Page :=
  { kind := .rendererSpecific
    name := searchIndexName
    platforms := t.platforms
    targetPath := t.name ++ "/" ++ searchIndexName
    strategy := ⟨.write, t.searchIndex⟩ }

end PageTree

/-! ## The transforms -/

/-- The base transforms of page trees. -/
inductive PageTransform where
  | navigation
  | indexPages
  | searchIndex
deriving DecidableEq, Repr, Inhabited

namespace PageTransform

def name : PageTransform → Text
  | .navigation => "navigation"
  | .indexPages => "index_pages"
  | .searchIndex => "search_index"

/-- The pages that a transform adds. -/
def newPages (t : PageTree) : PageTransform → List Page
  | .navigation => [t.navigationPage]
  | .indexPages => [t.allTypesPage, t.alphabeticalIndexPage]
  | .searchIndex => [t.searchIndexPage]

/-- What is said about the index pages. -/
def indexReport (t : PageTree) : Text :=
  let entries := t.nameEntries.length
  "index pages list " ++ Text.ofNat t.typeEntries.length ++ " type(s) and " ++
    Text.ofNat entries ++ " entr" ++ (if entries = 1 then "y" else "ies")

def apply (p : PageTransform) (t : PageTree) : Traced PageTree := do
  if p = .indexPages then Traced.log .debug "pages" (indexReport t)
  return { t with children := t.children ++ p.newPages t }

end PageTransform

end CrossDoc
