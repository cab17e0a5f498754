import CrossDoc.Page.Tree
import CrossDoc.Trace

/-!
# From documentation trees to page trees

The root page describes the module, each package and each class gets a page of
its own, and all members are rows in tables of the page of their owner: types,
enum entries, functions and properties, in this order.

Where the platforms of a declaration agree, their common description stands
once; where they differ, each variant is tagged with its platforms.
-/

namespace CrossDoc

namespace PlatformMap

/-- Adds a platform to the variant that looks the same, or a variant at the
end. -/
def addVariant (p : Platform) (c : Content) :
    List (Content × List Platform) → List (Content × List Platform)
  | [] => [(c, [p])]
  | (d, ps) :: rest =>
      if d = c then (d, ps ++ [p]) :: rest else (d, ps) :: addVariant p c rest

/-- The distinct renderings in order of first appearance, each with its
platforms. -/
def variants {α : Type} (render : α → Content) (m : PlatformMap α) :
    List (Content × List Platform) :=
  m.entries.foldl (fun vs e => addVariant e.1 (render e.2) vs) []

/-- The content of values that may differ between platforms.  A single variant
stands for itself, unless there is nothing on it. -/
def content {α : Type} (render : α → Content) (m : PlatformMap α) : Content :=
  match m.variants render with
  | [] => .group [] []
  | [(c, ps)] =>
      if c.children.isEmpty && c.text.isEmpty then .group [] [] else c.tagged ps
  | vs =>
      { kind := .hinted
        platforms := vs.flatMap Prod.snd
        children := vs.map fun v => v.1.tagged v.2 }

end PlatformMap

namespace Facts

/-- A paragraph, or nothing for an empty text. -/
def paragraphs (t : Text) : List Content := if t.isEmpty then [] else [.paragraph t]

def signatureBlock (f : Facts) : List Content :=
  if f.signature.isEmpty then [] else [.code f.signature]

def deprecationText (d : Deprecation) : Text :=
  let message : Text := if d.message.isEmpty then [] else ": " ++ d.message
  let since : Text := if d.since.isEmpty then [] else " (since " ++ d.since ++ ")"
  "**Deprecated**" ++ message ++ since

/-- A remark that something is deprecated. -/
def deprecationNote (t : Text) : Content := { Content.paragraph t with style := "deprecated" }

def parameterTable (f : Facts) : List Content :=
  if f.params.isEmpty then []
  else
    [.header 4 "Parameters",
      .table ["Name", "Description"]
        (f.params.map fun p => .row [.code p.name, .paragraph p.description] [])]

/-- All that is known about a declaration on one platform. -/
def details (f : Facts) : Content :=
  let deprecation := match f.deprecation with
    | some d => [deprecationNote (deprecationText d)]
    | none => []
  let since := if f.since.isEmpty then [] else [Content.paragraph ("Since: " ++ f.since)]
  let seeAlso :=
    if f.seeAlso.isEmpty then []
    else [Content.paragraph ("See also: " ++ Text.joinFilled ", " f.seeAlso)]
  let source := if f.sourceUrl.isEmpty then [] else [Content.urlLink "Source" f.sourceUrl]
  .group (f.signatureBlock ++ deprecation ++ paragraphs f.documentation ++ f.parameterTable ++
    since ++ seeAlso ++ source) []

/-- The documentation alone, for modules and packages. -/
def description (f : Facts) : Content := .group (paragraphs f.documentation) []

/-- The summary alone, for the list of packages. -/
def overview (f : Facts) : Content := .group (paragraphs f.summary) []

/-- Signature and summary, for the tables of members. -/
def brief (f : Facts) : Content :=
  let deprecation := if f.deprecation.isSome then [deprecationNote "**Deprecated**"] else []
  .group (f.signatureBlock ++ deprecation ++ paragraphs f.summary) []

end Facts

/-! ## Tables of members -/

/-- The tables on the page of an owner. -/
inductive MemberTable where
  | types
  | entries
  | functions
  | properties
deriving DecidableEq, Repr, Inhabited

namespace MemberTable

def title : MemberTable → Text
  | .types => "Types"
  | .entries => "Entries"
  | .functions => "Functions"
  | .properties => "Properties"

/-- The kinds that a table lists. -/
def lists : MemberTable → Kind → Bool
  | .types, k => k.isClasslike || k == .typeAlias
  | .entries, k => k == .enumEntry
  | .functions, k => k == .function
  | .properties, k => k == .property

def all : List MemberTable := [.types, .entries, .functions, .properties]

end MemberTable

namespace Declaration

/-- The row of a member: its name, which links to it, and its summary. -/
def memberRow (d : Declaration) : Content :=
  .row [.linkTo d.name d.id, d.facts.content Facts.brief] d.platforms

/-- One table of members under its title, unless it is empty. -/
def memberTable (members : List Declaration) (t : MemberTable) : List Content :=
  let rows := (members.filter fun d => t.lists d.kind).map memberRow
  if rows.isEmpty then []
  else [.header 2 t.title, .table ["Name", "Summary"] rows]

def memberTables (members : List Declaration) : List Content :=
  MemberTable.all.flatMap (memberTable members)

/-- The name a package is shown under. -/
def packageDisplayName (name : Text) : Text := if name.isEmpty then "[root]" else name

mutual

/-- The page of a class. -/
def classPage : Declaration → Page
  | ⟨kind, name, id, _, facts, children⟩ =>
      { kind := .content
        name := name
        ids := [id]
        platforms := facts.platforms
        content := .group
          ([.header 1 (kind.name ++ " " ++ name), facts.content Facts.details] ++
            memberTables children) []
        children := classPages children }

/-- The pages of the classes among siblings. -/
def classPages : List Declaration → List Page
  | [] => []
  | d :: rest =>
      if d.kind.isClasslike then d.classPage :: classPages rest else classPages rest

end

/-- The page of a package. -/
def packagePage (d : Declaration) : Page :=
  let name := packageDisplayName d.name
  { kind := .content
    name := name
    ids := [d.id]
    platforms := d.platforms
    content := .group
      ([.header 1 ("Package " ++ name), d.facts.content Facts.description] ++
        memberTables d.children) []
    children := classPages d.children }

/-- The row of a package on the root page. -/
def packageRow (d : Declaration) : Content :=
  .row [.linkTo (packageDisplayName d.name) d.id, d.facts.content Facts.overview] d.platforms

end Declaration

namespace PageTree

/-- The page tree of a module. -/
def ofModule (m : DocModule) : PageTree :=
  let rows := m.packages.map Declaration.packageRow
  let packages :=
    if rows.isEmpty then []
    else [Content.header 2 "Packages", .table ["Name", "Summary"] rows]
  { name := m.name
    platforms := m.platforms
    content := .group
      ([.header 1 m.name, m.facts.content Facts.description] ++ packages) []
    children := m.packages.map Declaration.packagePage }

/-- Creates the page tree of a module and reports its size. -/
def create (m : DocModule) : Traced PageTree := do
  let t := ofModule m
  Traced.log .debug "pages"
    ("created " ++ Text.ofNat t.count ++ " page(s) for module '" ++ m.name ++ "'")
  return t

end PageTree

end CrossDoc
