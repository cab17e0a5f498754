import CrossDoc.Text

/-!
# Platforms

A `Platform` identifies one analysis target: the pass it belongs to, its
runtime family and its logical sub-targets.  Equality is structural and the
order is that of the fields, so platforms serve as keys.
-/

namespace CrossDoc

/-- The runtime families, in their order. -/
inductive Family where
  | jvm
  | js
  | native
  | common
deriving DecidableEq, Repr, Ord, Inhabited

namespace Family

def name : Family → Text
  | .jvm => "jvm"
  | .js => "js"
  | .native => "native"
  | .common => "common"

/-- Reads a family name in any case.  The empty name is the default family;
some families have further names. -/
def ofName? (t : Text) : Option Family :=
  let n := Text.lower t
  if n = [] ∨ n = "jvm" ∨ n = "androidjvm" then some .jvm
  else if n = "js" then some .js
  else if n = "native" ∨ n = "kotlin-native" ∨ n = "kn" then some .native
  else if n = "common" ∨ n = "metadata" then some .common
  else none

/-- What is said about a name that `ofName?` refuses. -/
def unrecognized (t : Text) : Text := "unrecognized platform: '" ++ t ++ "'"

end Family

/-- One analysis target. -/
structure Platform where
  name : Text
  family : Family
  targets : List Text
deriving DecidableEq, Repr, Ord, Inhabited

namespace Platform

/-- The label `name/family`, followed by the targets in parentheses if there
are any. -/
def displayName (p : Platform) : Text :=
  let label := p.name ++ "/" ++ p.family.name
  if p.targets.isEmpty then label
  else label ++ " (" ++ Text.join ", " p.targets ++ ")"

end Platform

end CrossDoc
