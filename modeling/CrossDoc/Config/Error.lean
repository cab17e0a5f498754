import CrossDoc.Platform

/-!
# Configuration errors

What can be wrong with a configuration, and what is said about it.
-/

namespace CrossDoc

/-- What can be wrong with one pass. -/
inductive PassProblem where
  | missingModule
  | duplicatePlatform (p : Platform)
  | sourceLinkSeparator (path : Text)
  | sourceLinkUrl (path : Text)
  | externalLinkUrl
  | packagePrefix
deriving DecidableEq, Repr, Inhabited

def PassProblem.message : PassProblem → Text
  | .missingModule => "module name is required"
  | .duplicatePlatform p => "duplicate platform '" ++ p.displayName ++ "'"
  | .sourceLinkSeparator path =>
      "source link path '" ++ path ++ "' must use '/' as separator"
  | .sourceLinkUrl path => "source link for '" ++ path ++ "' has no url"
  | .externalLinkUrl => "external documentation link has no url"
  | .packagePrefix => "package options need a prefix"

/-- What can be wrong with a configuration. -/
inductive ConfigProblem where
  | unterminatedHeader
  | unclosedArrayHeader
  | orphanTable (name : Text)
  | unknownTable (name : Text)
  | unexpectedCharacter (c : Char)
  | missingKey
  | missingEquals (key : Text)
  | invalidValue (word : Text)
  | unterminatedString
  | unknownEscape (c : Char)
  | unterminatedArray
  | arrayItem
  | arraySeparator
  | outsideTable (key : Text)
  | notText (key : Text)
  | notBoolean (key : Text)
  | notInteger (key : Text)
  | notList (key : Text)
  | unknownPlatform (name : Text)
  | cannotOpen (path : Text)
  /-- A problem of the file at a path. -/
  | inFile (path : Text) (problem : ConfigProblem)
  | emptyFormat
  /-- A problem of a pass; passes are counted from one. -/
  | inPass (number : Nat) (problem : PassProblem)
  | passFromTwoSides
deriving DecidableEq, Repr, Inhabited

def ConfigProblem.message : ConfigProblem → Text
  | .unterminatedHeader => "unterminated table header"
  | .unclosedArrayHeader => "expected ']]' to close array table header"
  | .orphanTable name => "[[" ++ name ++ "]] must follow a [[pass]] table"
  | .unknownTable name => "unknown table '" ++ name ++ "'"
  | .unexpectedCharacter c => "unexpected character '" ++ [c] ++ "'"
  | .missingKey => "expected a key"
  | .missingEquals key => "expected '=' after key '" ++ key ++ "'"
  | .invalidValue word => "invalid value '" ++ word ++ "'"
  | .unterminatedString => "unterminated string"
  | .unknownEscape c => "unknown escape '\\" ++ [c] ++ "'"
  | .unterminatedArray => "unterminated array"
  | .arrayItem => "arrays may only contain strings"
  | .arraySeparator => "expected ',' or ']' in array"
  | .outsideTable key => "key '" ++ key ++ "' outside of any table"
  | .notText key => "'" ++ key ++ "' must be a string"
  | .notBoolean key => "'" ++ key ++ "' must be true or false"
  | .notInteger key => "'" ++ key ++ "' must be an integer"
  | .notList key => "'" ++ key ++ "' must be an array of strings"
  | .unknownPlatform name => Family.unrecognized name
  | .cannotOpen path => "cannot open configuration file '" ++ path ++ "'"
  | .inFile path problem => path ++ ": " ++ problem.message
  | .emptyFormat => "output format must not be empty"
  | .inPass number problem => "pass " ++ Text.ofNat number ++ ": " ++ problem.message
  | .passFromTwoSides =>
      "--module/--source/--classpath/--platform cannot be combined with passes " ++
        "from a configuration file"

/-- A problem and its line in the configuration text, zero if it has none. -/
structure ConfigError where
  problem : ConfigProblem
  line : Nat := 0
deriving DecidableEq, Repr, Inhabited

namespace ConfigError

def message (e : ConfigError) : Text := e.problem.message

/-- The message, after its line if it has one. -/
def toText (e : ConfigError) : Text :=
  if 0 < e.line then "line " ++ Text.ofNat e.line ++ ": " ++ e.message else e.message

end ConfigError

end CrossDoc
