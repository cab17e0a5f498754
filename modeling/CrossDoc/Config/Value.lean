import CrossDoc.Config.Error

/-!
# Configuration values

A cursor stands in the configuration text and knows its line.  The functions
here read the pieces of the text: blank space and comments, keys, and values,
which are strings, string arrays, booleans and integers.

At the end of the text a cursor sees a NUL.
-/

namespace CrossDoc

/-- The rest of a text and the line on which it starts. -/
structure Cursor where
  rest : Text
  line : Nat := 1
deriving DecidableEq, Repr, Inhabited

namespace Cursor

def atEnd (c : Cursor) : Bool := c.rest.isEmpty

def peek (c : Cursor) : Char := c.rest.head?.getD '\x00'

/-- Moves over one character. -/
def advance (c : Cursor) : Cursor :=
  match c.rest with
  | [] => c
  | x :: rest => ⟨rest, if x = '\n' then c.line + 1 else c.line⟩

/-- Moves over characters of a class that holds no line feed. -/
def skip (p : Char → Bool) (c : Cursor) : Cursor := ⟨c.rest.dropWhile p, c.line⟩

/-- Moves to the end of the line if a comment starts here. -/
def skipComment (c : Cursor) : Cursor :=
  if c.peek = '#' then c.skip (· != '\n') else c

def skipBlanks (c : Cursor) : Cursor := c.skip Text.isLineBlank

/-- Moves over blanks, line ends and comments, from inside a comment or
not. -/
def skipSpaceFrom (inComment : Bool) : Text → Nat → Cursor
  | [], line => ⟨[], line⟩
  | x :: rest, line =>
      if x = '\n' then skipSpaceFrom false rest (line + 1)
      else if inComment || Text.isLineBlank x then skipSpaceFrom inComment rest line
      else if x = '#' then skipSpaceFrom true rest line
      else ⟨x :: rest, line⟩

def skipSpace (c : Cursor) : Cursor := skipSpaceFrom false c.rest c.line

def fail {α : Type} (c : Cursor) (problem : ConfigProblem) : Except ConfigError α :=
  .error ⟨problem, c.line⟩

/-- Demands that nothing but blanks and a comment follow on the line. -/
def lineEnd (c : Cursor) : Except ConfigError Cursor :=
  let c := c.skipBlanks.skipComment
  if c.atEnd || c.peek == '\n' then .ok c else c.fail (.unexpectedCharacter c.peek)

end Cursor

/-- A value of the configuration text. -/
inductive ConfigValue where
  | text (t : Text)
  | list (ts : List Text)
  | boolean (b : Bool)
  | integer (n : Int)
deriving DecidableEq, Repr, Inhabited

namespace ConfigValue

/-! ## Strings -/

/-- The character that an escape stands for. -/
def unescape? (c : Char) : Option Char :=
  if c = 'n' then some '\n'
  else if c = 't' then some '\t'
  else if c = '"' then some '"'
  else if c = '\\' then some '\\'
  else none

/-- Reads the rest of a string, after its opening quote. -/
def readString : Text → Nat → Except ConfigError (Text × Cursor)
  | [], line => .error ⟨.unterminatedString, line⟩
  | '\\' :: [], line => .error ⟨.unknownEscape '\x00', line⟩
  | '\\' :: e :: rest, line =>
      match unescape? e with
      | none => .error ⟨.unknownEscape e, if e = '\n' then line + 1 else line⟩
      | some x => (readString rest line).map fun (t, c) => (x :: t, c)
  | x :: rest, line =>
      if x = '\n' then .error ⟨.unterminatedString, line⟩
      else if x = '"' then .ok ([], ⟨rest, line⟩)
      else (readString rest line).map fun (t, c) => (x :: t, c)

/-! ## Arrays -/

/-- Reads the rest of an array, after its opening bracket; at most `fuel`
strings. -/
def readItems : Nat → Cursor → Except ConfigError (List Text × Cursor)
  | 0, c => c.fail .unterminatedArray
  | fuel + 1, c => do
      let c := c.skipSpace
      if c.atEnd then c.fail .unterminatedArray
      else if c.peek = ']' then return ([], c.advance)
      else if c.peek ≠ '"' then c.fail .arrayItem
      else
        let (item, c) ← readString c.advance.rest c.line
        let c := c.skipSpace
        if c.peek = ',' then
          let (items, c) ← readItems fuel c.advance
          return (item :: items, c)
        else if c.peek = ']' then return ([item], c.advance)
        else c.fail .arraySeparator

/-! ## Words -/

def isWordChar (c : Char) : Bool := c.isAlphanum || c == '-' || c == '+' || c == '_'

/-- The range of the integers that can be written. -/
def isIntegerRange (n : Int) : Bool := Int64.minValue.toInt ≤ n && n ≤ Int64.maxValue.toInt

/-- The boolean or integer that a word stands for. -/
def ofWord? (word : Text) : Option ConfigValue :=
  if word = "true" then some (.boolean true)
  else if word = "false" then some (.boolean false)
  else match Text.toInt? word with
    | some n => if isIntegerRange n then some (.integer n) else none
    | none => none

/-- Reads a value. -/
def read (c : Cursor) : Except ConfigError (ConfigValue × Cursor) :=
  if c.peek = '"' then
    (readString c.advance.rest c.line).map fun (t, c) => (.text t, c)
  else if c.peek = '[' then
    (readItems (c.rest.length + 1) c.advance).map fun (ts, c) => (.list ts, c)
  else
    let word := c.rest.takeWhile isWordChar
    let c := c.skip isWordChar
    match ofWord? word with
    | some v => .ok (v, c)
    | none => c.fail (.invalidValue word)

/-! ## Typed access -/

def asText (key : Text) : ConfigValue → Except ConfigProblem Text
  | .text t => .ok t
  | .list _ | .boolean _ | .integer _ => .error (.notText key)

def asBoolean (key : Text) : ConfigValue → Except ConfigProblem Bool
  | .boolean b => .ok b
  | .text _ | .list _ | .integer _ => .error (.notBoolean key)

def asInteger (key : Text) : ConfigValue → Except ConfigProblem Int
  | .integer n => .ok n
  | .text _ | .list _ | .boolean _ => .error (.notInteger key)

/-- A single string stands for a list of one. -/
def asList (key : Text) : ConfigValue → Except ConfigProblem (List Text)
  | .text t => .ok [t]
  | .list ts => .ok ts
  | .boolean _ | .integer _ => .error (.notList key)

/-- A string that names a platform family. -/
def asFamily (key : Text) (v : ConfigValue) : Except ConfigProblem Family := do
  let name ← v.asText key
  match Family.ofName? name with
  | some family => return family
  | none => .error (.unknownPlatform name)

end ConfigValue

end CrossDoc
