import CrossDoc.Decl.Facts

/-!
# Documentation comments

A comment is a body followed by block tags.  A tag is a line that starts with
an at sign; it lasts until the next tag, the next code fence or the end.
Lines inside a fenced code block are body text whatever they start with.

Four tags are known: parameters, cross references, the version something
appeared in, and deprecation.  Others are dropped.
-/

namespace CrossDoc

/-- A comment taken apart. -/
structure DocComment where
  summary : Text := []
  body : Text := []
  params : List Param := []
  seeAlso : List Text := []
  since : Option Text := none
  deprecated : Option Deprecation := none
deriving DecidableEq, Repr, Inhabited

namespace DocComment

/-- A line that opens or closes a code block. -/
def isFence (trimmed : Text) : Bool := Text.startsWith "```" trimmed

/-- A line that starts a tag, outside of code blocks. -/
def isTag (trimmed : Text) : Bool := trimmed.head? == some '@'

/-! ## Summary -/

/-- A trimmed line that belongs to a paragraph: blank lines, tags and fences
end one. -/
def isProse (trimmed : Text) : Bool :=
  !trimmed.isEmpty && !isTag trimmed && !isFence trimmed

/-- The first paragraph of a text, as one line.  Blank lines at the start do
not count. -/
def summaryOf (t : Text) : Text :=
  Text.join " " ((((Text.lines t).map Text.trim).dropWhile List.isEmpty).takeWhile isProse)

/-! ## Body and tags -/

/-- A tag that has begun: its lower case name and the trimmed lines of its
text, the last one first. -/
structure OpenTag where
  name : Text
  lines : List Text
deriving DecidableEq, Repr

/-- The text of a tag, as one line. -/
def OpenTag.content (tag : OpenTag) : Text := Text.trim (Text.join " " tag.lines.reverse)

/-- What has been read of a comment.  The lines of the body are kept apart,
the last one first. -/
structure Reading where
  found : DocComment := {}
  bodyLines : List Text := []
  tag : Option OpenTag := none
  inFence : Bool := false
deriving DecidableEq, Repr

/-- Records a finished tag.  Parameters need a name and cross references a
text; of repeated versions and deprecations the last counts. -/
def addTag (d : DocComment) (tag : OpenTag) : DocComment :=
  let content := tag.content
  if tag.name = "param" then
    let (name, description) := Text.firstWord content
    if name.isEmpty then d
    else { d with params := d.params ++ [⟨name, description⟩] }
  else if tag.name = "see" then
    if content.isEmpty then d
    else { d with seeAlso := d.seeAlso ++ [content] }
  else if tag.name = "since" then { d with since := some content }
  else if tag.name = "deprecated" then
    { d with deprecated := some ⟨content, []⟩ }
  else d

/-- Ends the open tag, if any. -/
def closeTag (r : Reading) : Reading :=
  match r.tag with
  | none => r
  | some tag => { r with found := addTag r.found tag, tag := none }

def addBodyLine (r : Reading) (line : Text) : Reading :=
  { r with bodyLines := line :: r.bodyLines }

/-- Begins the tag of a line without its at sign. -/
def openTag (line : Text) : OpenTag :=
  let (word, rest) := Text.firstWord line
  ⟨if word.isEmpty then "unknown" else Text.lower word, [rest]⟩

/-- Reads one line. -/
def readLine (r : Reading) (line : Text) : Reading :=
  let t := Text.trim line
  if isFence t then
    let r := closeTag r
    addBodyLine { r with inFence := !r.inFence } line
  else if r.inFence then addBodyLine r line
  else if isTag t then { closeTag r with tag := some (openTag (t.drop 1)) }
  else match r.tag with
    | none => addBodyLine r line
    | some tag => { r with tag := some { tag with lines := t :: tag.lines } }

/-- Takes the version of the comment as that of the deprecation. -/
def shareSince (d : DocComment) : DocComment :=
  match d.deprecated, d.since with
  | some dep, some v =>
      if dep.since.isEmpty then { d with deprecated := some { dep with since := v } }
      else d
  | _, _ => d

/-- Takes a comment apart. -/
def parse (t : Text) : DocComment :=
  let r := closeTag ((Text.lines t).foldl readLine {})
  shareSince
    { r.found with
      summary := summaryOf t
      body := Text.trim (Text.unlines r.bodyLines.reverse) }

end DocComment

/-- Stores a comment in the facts.  A deprecation the facts already hold is
kept, and a version is replaced only by another one. -/
def Facts.applyComment (f : Facts) (t : Text) : Facts :=
  let d := DocComment.parse t
  { f with
    documentation := d.body
    summary := d.summary
    params := d.params
    seeAlso := d.seeAlso
    since := d.since.getD f.since
    deprecation := match f.deprecation with
      | some old => some old
      | none => d.deprecated }

end CrossDoc
