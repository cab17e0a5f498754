import CrossDoc.Platform.Map

/-!
# Facts about a declaration

What one platform knows about one declaration: its documentation, its
signature, its place in the sources, and the marks attached to it.
-/

namespace CrossDoc

/-- What a declaration is. -/
inductive Kind where
  | package
  | classType
  | interfaceType
  | objectType
  | enumType
  | enumEntry
  | function
  | property
  | typeAlias
deriving DecidableEq, Repr, Inhabited

namespace Kind

def name : Kind → Text
  | .package => "package"
  | .classType => "class"
  | .interfaceType => "interface"
  | .objectType => "object"
  | .enumType => "enum"
  | .enumEntry => "entry"
  | .function => "fun"
  | .property => "val"
  | .typeAlias => "typealias"

/-- The kind a declaration keyword introduces. -/
def ofKeyword? (w : Text) : Option Kind :=
  if w = "package" then some .package
  else if w = "class" then some .classType
  else if w = "interface" then some .interfaceType
  else if w = "object" then some .objectType
  else if w = "enum" then some .enumType
  else if w = "entry" then some .enumEntry
  else if w = "fun" then some .function
  else if w = "val" ∨ w = "var" then some .property
  else if w = "typealias" then some .typeAlias
  else none

/-- The kinds that have members and a page of their own. -/
def isClasslike : Kind → Bool
  | .classType | .interfaceType | .objectType | .enumType => true
  | .package | .enumEntry | .function | .property | .typeAlias => false

end Kind

/-- Who may use a declaration. -/
inductive Visibility where
  | publicDecl
  | protectedDecl
  | internalDecl
  | privateDecl
deriving DecidableEq, Repr, Inhabited

namespace Visibility

def name : Visibility → Text
  | .publicDecl => "public"
  | .protectedDecl => "protected"
  | .internalDecl => "internal"
  | .privateDecl => "private"

def ofName? (w : Text) : Option Visibility :=
  if w = "public" then some .publicDecl
  else if w = "protected" then some .protectedDecl
  else if w = "internal" then some .internalDecl
  else if w = "private" then some .privateDecl
  else none

/-- Public and protected declarations belong to the documented interface. -/
def isExposed : Visibility → Bool
  | .publicDecl | .protectedDecl => true
  | .internalDecl | .privateDecl => false

end Visibility

/-- A line of a source file; lines are counted from one, and zero stands for
the file as a whole. -/
structure SourceLocation where
  file : Text := []
  /-- The count has no bound, where one of 32 bits starts again behind `2 ^ 32` lines. -/
  line : Nat := 0
deriving DecidableEq, Repr, Inhabited

structure Deprecation where
  message : Text := []
  since : Text := []
deriving DecidableEq, Repr, Inhabited

/-- A documented parameter. -/
structure Param where
  name : Text := []
  description : Text := []
deriving DecidableEq, Repr, Inhabited

/-- What one platform knows about a declaration. -/
structure Facts where
  /-- The documentation without its tags. -/
  documentation : Text := []
  /-- The first paragraph of the documentation. -/
  summary : Text := []
  signature : Text := []
  visibility : Visibility := .publicDecl
  source : Option SourceLocation := none
  /-- A link to the source in a browser. -/
  sourceUrl : Text := []
  /-- Annotation names, without the at sign. -/
  annotations : List Text := []
  deprecation : Option Deprecation := none
  since : Text := []
  params : List Param := []
  seeAlso : List Text := []
  /-- Free marks attached by transforms. -/
  extra : List Text := []
deriving DecidableEq, Repr, Inhabited

def Facts.hasDocumentation (f : Facts) : Bool :=
  !f.documentation.isEmpty || !f.summary.isEmpty

/-- The facts of every platform that has the declaration. -/
abbrev FactsMap := PlatformMap Facts

end CrossDoc
