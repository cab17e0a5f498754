import CrossDoc.Config.Basic
import CrossDoc.Decl.Facts
import CrossDoc.Files.Path

/-!
# Source links

A directory *covers* a file when the file is the directory itself or lies
below it, segment by segment.  A source location is linked through the longest
directory that covers its file.
-/

namespace CrossDoc

namespace Path

/-- The file is the directory or lies below it.  The empty directory covers
nothing. -/
def covers (dir file : Text) : Bool :=
  !dir.isEmpty &&
    (file == dir ||
      Text.startsWith (if endsWithSlash dir then dir else dir ++ [slash]) file)

end Path

/-- The file lies at or below one of the suppressed paths. -/
def isSuppressedFile (suppressed : List Text) (file : Text) : Bool :=
  suppressed.any fun entry => Path.covers entry file

namespace SourceLink

/-- The directory of a link, without slashes at its end. -/
def directory (l : SourceLink) : Text := Path.dropEndSlashes l.path

/-- The link with the longest directory, the first of them. -/
def longest (best : Option SourceLink) : List SourceLink → Option SourceLink
  | [] => best
  | l :: rest =>
      match best with
      | none => longest (some l) rest
      | some b => longest (some (if b.directory.length < l.directory.length then l else b)) rest

/-- The link of a file. -/
def best? (links : List SourceLink) (file : Text) : Option SourceLink :=
  longest none (links.filter fun l => Path.covers l.directory file)

/-- The address of a location in a directory that covers it. -/
def address (l : SourceLink) (at_ : SourceLocation) : Text :=
  let base := Text.trimRight (· == Path.slash) l.url
  let rest := at_.file.drop l.directory.length
  let rest :=
    if rest.isEmpty || rest.head? == some Path.slash then rest else Path.slash :: rest
  let line :=
    if !l.lineSuffix.isEmpty && 0 < at_.line then l.lineSuffix ++ Text.ofNat at_.line else []
  base ++ rest ++ line

/-- The address of a location, empty if no link covers its file. -/
def resolve (links : List SourceLink) (at_ : SourceLocation) : Text :=
  match best? links at_.file with
  | some l => l.address at_
  | none => []

end SourceLink

end CrossDoc
