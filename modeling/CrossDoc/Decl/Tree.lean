import CrossDoc.Decl.Facts
import CrossDoc.Decl.Id

/-!
# Documentation trees

A `DocModule` is the root of one tree: module facts and packages, below them
classes and members.  Whatever may differ between platforms sits in the facts
map of a node, so that joining the views of two platforms is a map union.

`DocModule.declarations` lists the tree in depth-first order; the index looks
a declaration up by its identity, the first in that order if several share it.
-/

namespace CrossDoc

/-- A documented declaration with its members. -/
structure Declaration where
  kind : Kind := .package
  name : Text := []
  id : DeclId := {}
  /-- The identity of the enclosing declaration. -/
  parent : Option DeclId := none
  facts : FactsMap := {}
  children : List Declaration := []
deriving Repr, Inhabited

/-- The root of a documentation tree. -/
structure DocModule where
  name : Text := []
  facts : FactsMap := {}
  packages : List Declaration := []
deriving Repr, Inhabited

namespace Declaration

/-- The platforms the declaration exists on, in order of contribution. -/
def platforms (d : Declaration) : List Platform := d.facts.platforms

def findChild? (d : Declaration) (id : DeclId) : Option Declaration :=
  d.children.find? fun c => c.id == id

mutual

/-- The declaration and all below it, in depth-first order. -/
def flatten : Declaration → List Declaration
  | ⟨kind, name, id, parent, facts, children⟩ =>
      ⟨kind, name, id, parent, facts, children⟩ :: flattenAll children

/-- The trees of a forest, one after the other. -/
def flattenAll : List Declaration → List Declaration
  | [] => []
  | d :: rest => d.flatten ++ flattenAll rest

end

mutual

/-- The number of declarations of a tree. -/
def count : Declaration → Nat
  | ⟨_, _, _, _, _, children⟩ => 1 + countAll children

def countAll : List Declaration → Nat
  | [] => 0
  | d :: rest => d.count + countAll rest

end

end Declaration

namespace DocModule

def platforms (m : DocModule) : List Platform := m.facts.platforms

def findPackage? (m : DocModule) (name : Text) : Option Declaration :=
  m.packages.find? fun p => p.id.package == name

/-- All declarations in depth-first order, packages included. -/
def declarations (m : DocModule) : List Declaration :=
  Declaration.flattenAll m.packages

/-- The number of declarations, packages included. -/
def count (m : DocModule) : Nat := Declaration.countAll m.packages

/-- Looks a declaration up; of several with one identity the first in
depth-first order is found. -/
def find? (m : DocModule) (id : DeclId) : Option Declaration :=
  m.declarations.find? fun d => d.id == id

/-- The declaration that a node names as its parent. -/
def parentOf? (m : DocModule) (d : Declaration) : Option Declaration :=
  d.parent.bind m.find?

/-- The identities that occur in the tree, each once. -/
def ids (m : DocModule) : List DeclId := (m.declarations.map (·.id)).eraseDups

end DocModule

end CrossDoc
