import CrossDoc.Decl.Facts

/-!
# Analyzed symbols

A `Symbol` is a declaration as the analysis found it, with its members.  Its
signature is the declaration as written; the discriminator of a function is
the list of its parameter types, which separates overloads.
-/

namespace CrossDoc

/-- One analyzed declaration. -/
structure Symbol where
  kind : Kind := .classType
  /-- The keyword it was declared with. -/
  keyword : Text := []
  name : Text := []
  /-- Everything after the name. -/
  tail : Text := []
  visibility : Visibility := .publicDecl
  /-- The message, if the symbol is deprecated. -/
  deprecation : Option Text := none
  annotations : List Text := []
  /-- The documentation comment as written. -/
  doc : Text := []
  location : SourceLocation := {}
  members : List Symbol := []
deriving Repr, Inhabited

/-- The symbols of one package. -/
structure SymbolGroup where
  package : Text := []
  symbols : List Symbol := []
deriving Repr, Inhabited

/-- The symbols of one source file. -/
structure SourceFile where
  path : Text := []
  package : Text := []
  symbols : List Symbol := []
deriving Repr, Inhabited

namespace Symbol

/-- The declaration as written: visibility unless public, keyword unless an
enum entry, name and tail. -/
def signature (s : Symbol) : Text :=
  let access : Text := if s.visibility = .publicDecl then [] else s.visibility.name ++ " "
  let word : Text := if s.keyword.isEmpty then s.kind.name else s.keyword
  let keyword : Text := if s.kind = .enumEntry then [] else word ++ " "
  access ++ keyword ++ s.name ++ s.tail

/-! ## Parameter types -/

/-- The text up to the parenthesis that closes the `depth` open ones; none if
it is missing. -/
def untilClosed : Nat → Text → Option Text
  | _, [] => none
  | depth, c :: rest =>
      if c = '(' then (untilClosed (depth + 1) rest).map (c :: ·)
      else if c = ')' then
        if depth ≤ 1 then some [] else (untilClosed (depth - 1) rest).map (c :: ·)
      else (untilClosed depth rest).map (c :: ·)

/-- What stands between the first parenthesis and the one that closes it. -/
def parameterText? (tail : Text) : Option Text :=
  match tail.dropWhile (· != '(') with
  | [] => none
  | _ :: rest => untilClosed 1 rest

/-- The pieces between the commas outside of brackets, where the `>` of an
arrow is no bracket. -/
def splitParameters (depth : Int) (previous : Char) : Text → List Text
  | [] => [[]]
  | c :: rest =>
      let isArrow := c == '>' && previous == '-'
      if c = ',' ∧ depth = 0 then [] :: splitParameters depth c rest
      else
        let inner :=
          if c = '(' ∨ c = '<' ∨ c = '[' then depth + 1
          else if (c = ')' ∨ c = '>' ∨ c = ']') ∧ !isArrow then depth - 1
          else depth
        match splitParameters inner c rest with
        | [] => [[c]]
        | piece :: more => (c :: piece) :: more

def trimBlanks (t : Text) : Text := Text.trimBy Text.isBlank t

/-- The trimmed parameters; an empty last piece is none. -/
def parameters (params : Text) : List Text :=
  let pieces := (splitParameters 0 '\x00' params).map trimBlanks
  if pieces.getLast? == some [] then pieces.dropLast else pieces

/-- The type of a parameter: what follows the first colon, if there is one, up
to an equals sign. -/
def parameterType (param : Text) : Text :=
  let type := if param.contains ':' then (param.dropWhile (· != ':')).drop 1 else param
  trimBlanks (type.takeWhile (· != '='))

/-- The parameter types of a function in parentheses; a function without a
closed parameter list has none.  Other symbols have no discriminator. -/
def discriminator (s : Symbol) : Text :=
  if s.kind = .function then
    match parameterText? s.tail with
    | none => "()"
    | some params =>
        "(" ++ Text.join "," ((parameters params).map parameterType) ++ ")"
  else []

end Symbol

end CrossDoc
