import CrossDoc.Render.Location

/-!
# Markdown

The content of a page as Markdown.  Blocks end with a blank line.  What stands
inside a table cell or a list item is written on one line, where a bar is
escaped.
-/

namespace CrossDoc

/-- What a link needs: where pages are, and the path of the page it is on. -/
structure LinkBase where
  tree : PageTree
  path : Text

namespace Markdown

/-- A text on one line: line feeds become spaces, carriage returns go, bars
are escaped. -/
def singleLine (t : Text) : Text :=
  t.flatMap fun c =>
    if c = '\n' then [' ']
    else if c = '|' then ['\\', '|']
    else if c = '\r' then []
    else [c]

def platformLabels (ps : List Platform) : Text := Text.join ", " (ps.map Platform.displayName)

/-- A link to an address, or to the page of a declaration; the bare text if
there is no such page. -/
def link (base : LinkBase) (text : Text) (target : Option DeclId) (url : Text) : Text :=
  let text := singleLine text
  if !url.isEmpty then "[" ++ text ++ "](" ++ url ++ ")"
  else match target.bind base.tree.resolve? with
    | some path => "[" ++ text ++ "](" ++ relativeLink base.path path ++ ")"
    | none => text

/-! ## Inline content -/

mutual

/-- A part on one line. -/
def inlineText (base : LinkBase) : Content → Text
  | ⟨kind, text, _, target, url, _, _, children⟩ =>
      match kind with
      | .header | .text => singleLine text
      | .code => if text.isEmpty then [] else "`" ++ singleLine text ++ "`"
      | .link => link base text target url
      | .hinted => Text.join "<br>" (inlineVariants base children)
      | .separator => []
      | .group | .table | .row => Text.joinNonempty " " (inlineTexts base children)

def inlineTexts (base : LinkBase) : List Content → List Text
  | [] => []
  | c :: rest => inlineText base c :: inlineTexts base rest

/-- The variants that are not empty, each after its platforms. -/
def inlineVariants (base : LinkBase) : List Content → List Text
  | [] => []
  | c :: rest =>
      let text := inlineText base c
      if text.isEmpty then inlineVariants base rest
      else ("**" ++ platformLabels c.platforms ++ "**: " ++ text) :: inlineVariants base rest

end

/-! ## Tables -/

def tableCell (cell : Text) : Text := " " ++ cell ++ " |"

/-- The cells of a line between bars. -/
def tableLine (cells : List Text) : Text := "|" ++ cells.flatMap tableCell ++ "\n"

/-- The line below the titles of `columns` columns. -/
def tableRule (columns : Nat) : Text :=
  "|" ++ (List.replicate columns ("---|" : Text)).flatten ++ "\n"

/-- A table of which the first row holds the titles if it is a header row, and
else only gives their number. -/
def table (base : LinkBase) (rows : List Content) : Text :=
  match rows with
  | [] => []
  | first :: rest =>
      let isHeader := first.style == ("header" : Text)
      let titles : List Text :=
        if isHeader then inlineTexts base first.children
        else List.replicate first.children.length []
      let titles := if titles.isEmpty then [[]] else titles
      let body := if isHeader then rest else first :: rest
      tableLine titles ++ tableRule titles.length ++
        (body.flatMap fun r => tableLine (inlineTexts base r.children)) ++ "\n"

/-! ## Lists -/

def isList (c : Content) : Bool := c.kind == .group && c.style == ("list" : Text)

/-- The text of a list item, without the lists inside it. -/
def itemText (base : LinkBase) (parts : List Content) : Text :=
  Text.joinNonempty " " (inlineTexts base (parts.filter fun c => !isList c))

mutual

/-- The items of a list, one line each, at a depth of nesting. -/
def listItems (base : LinkBase) (depth : Nat) : List Content → Text
  | [] => []
  | ⟨_, _, _, _, _, _, _, parts⟩ :: rest =>
      List.replicate (depth * 2) ' ' ++ "- " ++ itemText base parts ++ "\n" ++
        (lastList base (depth + 1) parts).getD [] ++ listItems base depth rest

/-- The last list among the parts of an item. -/
def lastList (base : LinkBase) (depth : Nat) : List Content → Option Text
  | [] => none
  | ⟨kind, _, _, _, _, style, _, children⟩ :: rest =>
      match lastList base depth rest with
      | some later => some later
      | none =>
          if kind = .group ∧ style = ("list" : Text) then
            some (listItems base depth children)
          else none

end

/-! ## Blocks -/

mutual

/-- A part as a block. -/
def block (base : LinkBase) : Content → Text
  | ⟨kind, text, level, target, url, style, platforms, children⟩ =>
      match kind with
      | .group =>
          if style = ("list" : Text) then listItems base 0 children ++ "\n"
          else blocks base children
      | .header => List.replicate level '#' ++ " " ++ text ++ "\n\n"
      | .text => if text.isEmpty then [] else text ++ "\n\n"
      | .code => "```\n" ++ text ++ "\n```\n\n"
      | .table => table base children
      | .row | .link =>
          inlineText base ⟨kind, text, level, target, url, style, platforms, children⟩ ++ "\n\n"
      | .hinted => variantBlocks base children
      | .separator => "---\n\n"

def blocks (base : LinkBase) : List Content → Text
  | [] => []
  | c :: rest => block base c ++ blocks base rest

/-- Variants, each after its platforms. -/
def variantBlocks (base : LinkBase) : List Content → Text
  | [] => []
  | c :: rest =>
      "**" ++ platformLabels c.platforms ++ "**\n\n" ++ block base c ++
        variantBlocks base rest

end

end Markdown

/-- The content of a page of a tree as Markdown. -/
def Content.toMarkdown (c : Content) (tree : PageTree) (path : Text) : Text :=
  Markdown.block ⟨tree, path⟩ c

end CrossDoc
