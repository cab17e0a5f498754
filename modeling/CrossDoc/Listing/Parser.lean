import CrossDoc.Listing.Symbol
import CrossDoc.Trace

/-!
# Declaration listings

A listing is read line by line.  Lines of documentation and annotations wait
for the next declaration.  A declaration belongs to the nearest earlier one
that is indented less; only classes can have members.  Lines that cannot be
read are reported and skipped.

The declarations on the way from the top to the last one read are *open*, the
innermost first; closing one adds it to the members of the next.
-/

namespace CrossDoc.Listing

/-! ## Lines -/

def trim (t : Text) : Text := Text.trimBy Text.isLineBlank t

/-- The width of the blanks at the start of a line; a tabulator counts four. -/
def indentation : Text → Nat
  | ' ' :: rest => 1 + indentation rest
  | '\t' :: rest => 4 + indentation rest
  | _ => 0

def isIdentifierChar (c : Char) : Bool :=
  c.isAlphanum || c == '_' || c == '$' || c == '\x60'

/-- Identifiers with dots, none of them at an end. -/
def isPackageName (t : Text) : Bool :=
  !t.isEmpty && t.head? != some '.' && t.getLast? != some '.' &&
    t.all fun c => isIdentifierChar c || c == '.'

/-- The characters that end a word of a declaration. -/
def isWordEnd (c : Char) : Bool :=
  Text.isSpace c || c == '\x0b' || c == '\x0c'

/-- The next word and what follows it; none if there is no further word. -/
def nextWord? (t : Text) : Option (Text × Text) :=
  let s := t.dropWhile isWordEnd
  if s.isEmpty then none
  else some (s.takeWhile (fun c => !isWordEnd c), s.dropWhile (fun c => !isWordEnd c))

/-- What can be wrong with a line. -/
inductive Problem where
  | annotationLine (text : Text)
  | packageName (name : Text)
  | latePackage
  | unknownKind (word : Text)
  | missingName (keyword : Text)
  | nested (name : Text) (kind : Kind) (owner : Text)
deriving DecidableEq, Repr, Inhabited

def Problem.message : Problem → Text
  | .annotationLine text => "malformed annotation '" ++ text ++ "'"
  | .packageName name => "malformed package name '" ++ name ++ "'"
  | .latePackage => "package directive must precede all declarations"
  | .unknownKind word => "unknown declaration kind '" ++ word ++ "'"
  | .missingName keyword => "declaration '" ++ keyword ++ "' has no name"
  | .nested name kind owner =>
      "'" ++ name ++ "' is nested under " ++ kind.name ++ " '" ++ owner ++
        "', which cannot have members"

/-- What is said when documentation or annotations are left at the end. -/
def leftoverMessage : Text :=
  "documentation or annotations at end of file are not attached to anything"

/-! ## Annotations -/

/-- Documentation and annotations that wait for a declaration. -/
structure Pending where
  docLines : List Text := []
  annotations : List Text := []
  deprecation : Option Text := none
deriving DecidableEq, Repr, Inhabited

def Pending.isEmpty (p : Pending) : Bool := p.docLines.isEmpty && p.annotations.isEmpty

/-- The text between the first two quotes, empty if there are not two. -/
def quotedText (t : Text) : Text :=
  let after := (t.dropWhile (· != '"')).drop 1
  if after.contains '"' then after.takeWhile (· != '"') else []

def isAnnotationChar (c : Char) : Bool := isIdentifierChar c || c == '.'

/-- Adds the annotation of a line that starts with an at sign; none if it has
no name.  That of a deprecation carries its message in quotes. -/
def Pending.annotate? (p : Pending) (text : Text) : Option Pending :=
  let name := (text.drop 1).takeWhile isAnnotationChar
  if name.isEmpty then none
  else
    let p := { p with annotations := p.annotations ++ [name] }
    if name = "Deprecated" ∨ name = "kotlin.Deprecated" then
      some { p with
        deprecation := some (quotedText ((text.drop 1).dropWhile isAnnotationChar)) }
    else some p

/-! ## Declarations -/

/-- A declaration line taken apart. -/
structure Head where
  visibility : Visibility := .publicDecl
  deprecated : Bool := false
  kind : Kind
  keyword : Text
  name : Text
  tail : Text
deriving DecidableEq, Repr, Inhabited

/-- The word after one that has been recognized; at the end of the line the
word itself stays. -/
def wordAfter (word rest : Text) : Text × Text := (nextWord? rest).getD (word, rest)

/-- A tail that does not start with a bracket or a colon is set off by one
space. -/
def normalTail (t : Text) : Text :=
  match t.head? with
  | none => []
  | some c => if c = '(' ∨ c = '<' ∨ c = ':' then t else ' ' :: trim t

/-- A declaration behind its visibility and the word for deprecation, where
`word` is the keyword and `rest` what follows it. -/
def headAfter (visibility : Option Visibility) (deprecated : Bool) (word rest : Text) :
    Except Problem Head :=
  match Kind.ofKeyword? word with
  | none | some .package => .error (.unknownKind word)
  | some kind =>
      let rest := trim rest
      let name := rest.takeWhile isIdentifierChar
      if name.isEmpty then .error (.missingName word)
      else .ok {
        visibility := visibility.getD .publicDecl
        deprecated, kind, keyword := word, name
        tail := normalTail (rest.dropWhile isIdentifierChar) }

/-- Takes a declaration apart: visibility, the word for deprecation, kind,
name, and everything after the name. -/
def readHead (text : Text) : Except Problem Head :=
  let (word, rest) := wordAfter [] text
  let visibility := Visibility.ofName? word
  let (word, rest) := if visibility.isSome then wordAfter word rest else (word, rest)
  let deprecated := word == ("deprecated" : Text)
  let (word, rest) := if deprecated then wordAfter word rest else (word, rest)
  headAfter visibility deprecated word rest

/-- The symbol of a declaration with what waited for it.  The word for
deprecation goes before an annotation. -/
def Head.toSymbol (h : Head) (p : Pending) (location : SourceLocation) : Symbol where
  kind := h.kind
  keyword := h.keyword
  name := h.name
  tail := h.tail
  visibility := h.visibility
  deprecation := if h.deprecated then some [] else p.deprecation
  annotations := p.annotations
  doc := Text.unlines p.docLines
  location := location
  members := []

/-! ## Nesting -/

/-- A declaration that may still get members, with its indentation. -/
structure OpenSymbol where
  indent : Nat
  symbol : Symbol
deriving Repr, Inhabited

/-- A listing while it is read. -/
structure Draft where
  package : Text := []
  pending : Pending := {}
  /-- The open declarations, innermost first. -/
  opened : List OpenSymbol := []
  /-- The closed declarations of the top level. -/
  closed : List Symbol := []
  diagnostics : List Diagnostic := []
deriving Repr, Inhabited

/-- Closes the open declarations that are indented at least this much, where
`loose` are further members of the innermost.  Answers what stays open, and
the declarations that are closed without an open one around them. -/
def closeTo (indent : Nat) (loose : List Symbol) :
    List OpenSymbol → List OpenSymbol × List Symbol
  | [] => ([], loose)
  | o :: rest =>
      let s := { o.symbol with members := o.symbol.members ++ loose }
      if indent ≤ o.indent then closeTo indent [s] rest
      else ({ o with symbol := s } :: rest, [])

def Draft.close (d : Draft) (indent : Nat) : Draft :=
  let (opened, loose) := closeTo indent [] d.opened
  { d with opened := opened, closed := d.closed ++ loose }

/-- Some declaration has been read. -/
def Draft.hasSymbol (d : Draft) : Bool := !d.opened.isEmpty || !d.closed.isEmpty

def Draft.report (d : Draft) (severity : Severity) (message : Text)
    (location : SourceLocation) : Draft :=
  { d with diagnostics := d.diagnostics ++ [⟨severity, message, some location⟩] }

def Draft.fail (d : Draft) (problem : Problem) (location : SourceLocation) : Draft :=
  d.report .error problem.message location

/-- Reads a package directive. -/
def Draft.readPackage (d : Draft) (text : Text) (location : SourceLocation) : Draft :=
  let name := trim (text.drop 7)
  if !isPackageName name then d.fail (.packageName name) location
  else if d.hasSymbol then d.fail .latePackage location
  else { d with package := name }

/-- Reads a declaration of the given indentation. -/
def Draft.readDeclaration (d : Draft) (text : Text) (indent : Nat)
    (location : SourceLocation) : Draft :=
  match readHead text with
  | .error problem => { d.fail problem location with pending := {} }
  | .ok head =>
      let s := head.toSymbol d.pending location
      let d := { d.close indent with pending := {} }
      match d.opened with
      | [] => { d with opened := [⟨indent, s⟩] }
      | o :: rest =>
          if o.symbol.kind.isClasslike then { d with opened := ⟨indent, s⟩ :: o :: rest }
          else d.fail (.nested s.name o.symbol.kind o.symbol.name) location

/-- Reads one line. -/
def Draft.readLine (d : Draft) (raw : Text) (location : SourceLocation) : Draft :=
  let text := trim raw
  if text.isEmpty then d
  else match Text.dropPrefix? "///" text with
    | some doc =>
        let line := (Text.dropPrefix? " " doc).getD doc
        { d with pending := { d.pending with docLines := d.pending.docLines ++ [line] } }
    | none =>
        if Text.startsWith "//" text then d
        else if text.head? = some '@' then
          match d.pending.annotate? text with
          | some p => { d with pending := p }
          | none => d.fail (.annotationLine text) location
        else if Text.startsWith "package " text ∨ text = "package" then
          d.readPackage text location
        else d.readDeclaration text (indentation raw) location

/-- Reads lines, the first of which has the number `line`. -/
def Draft.readLines (file : Text) (d : Draft) (line : Nat) : List Text → Draft
  | [] => d
  | raw :: rest => Draft.readLines file (d.readLine raw ⟨file, line⟩) (line + 1) rest

/-- Reports what still waits at the end, on the last line. -/
def Draft.finish (d : Draft) (location : SourceLocation) : Draft :=
  if d.pending.isEmpty then d else d.report .warning leftoverMessage location

/-- The source file and the diagnostics of a listing. -/
def parse (text file : Text) : SourceFile × List Diagnostic :=
  let ls := Text.lines text
  let d := (Draft.readLines file {} 1 ls).finish ⟨file, ls.length⟩
  (⟨file, d.package, (d.close 0).closed⟩, d.diagnostics)

end CrossDoc.Listing
