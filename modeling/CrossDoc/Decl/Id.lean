import CrossDoc.Text

/-!
# Declaration identity

A `DeclId` is the fully qualified path of a declaration and, for a callable,
the text that separates its overloads.  Passes that see one declaration give
it one identity, which is what merging and linking go by.
-/

namespace CrossDoc

/-- The identity of a declaration. -/
structure DeclId where
  package : Text := []
  /-- The enclosing classes and the class itself, outermost first. -/
  classes : List Text := []
  /-- The name of a function or property; empty for anything else. -/
  callable : Text := []
  /-- Separates overloads, such as `(Int,String)`. -/
  signature : Text := []
deriving DecidableEq, Repr, Ord, Inhabited

namespace DeclId

def ofPackage (name : Text) : DeclId := { package := name }

/-- The identity of a class inside this declaration. -/
def withClass (d : DeclId) (name : Text) : DeclId :=
  { package := d.package, classes := d.classes ++ [name] }

/-- The identity of a callable inside this declaration. -/
def withCallable (d : DeclId) (name signature : Text) : DeclId :=
  { d with callable := name, signature := signature }

/-- The identity of the enclosing declaration; a package has none. -/
def parent? (d : DeclId) : Option DeclId :=
  if d.callable ≠ [] then some { d with callable := [], signature := [] }
  else if d.classes ≠ [] then some { d with classes := d.classes.dropLast }
  else none

/-- At most `steps` enclosing declarations after the declaration itself, the
innermost first. -/
def climb : Nat → DeclId → List DeclId
  | 0, d => [d]
  | steps + 1, d =>
      match d.parent? with
      | some up => d :: climb steps up
      | none => [d]

/-- The declaration and all that enclose it, the innermost first. -/
def lineage (d : DeclId) : List DeclId := climb (d.classes.length + 1) d

def isPackage (d : DeclId) : Bool := d.classes.isEmpty && d.callable.isEmpty

/-- The printed form `package/Outer.Inner/callable/signature`. -/
def toText (d : DeclId) : Text :=
  d.package ++ "/" ++ Text.join "." d.classes ++ "/" ++ d.callable ++ "/" ++
    d.signature

end DeclId

end CrossDoc
