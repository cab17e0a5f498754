/-!
# Byte texts

Every text the tool reads or writes is a string of bytes.  A `Text` holds one
character per byte, `U+0000` to `U+00FF`, so the order of texts is the order
of their unsigned bytes and character classes are those of ASCII.

The operations are the ones all readers share: lines, trimming, words, case
and decimal numbers.
-/

namespace CrossDoc

/-- A byte string, one character per byte. -/
abbrev Text := List Char

instance : Coe String Text := ⟨String.toList⟩

namespace Text

/-! ## Lines -/

/-- The lines of a text without their line feeds.  A final line feed ends the
last line and starts no further one; the empty text has no line. -/
def lines : Text → List Text
  | [] => []
  | c :: rest =>
      if c = '\n' then [] :: lines rest
      else match lines rest with
        | [] => [[c]]
        | line :: more => (c :: line) :: more

/-- The texts with `sep` between neighbours. -/
def join (sep : Text) : List Text → Text
  | [] => []
  | [t] => t
  | t :: u :: rest => t ++ sep ++ join sep (u :: rest)

/-- The texts with `sep` between neighbours, where empty texts at the start
count as none. -/
def joinFilled (sep : Text) (ts : List Text) : Text := join sep (ts.dropWhile List.isEmpty)

/-- The texts that are not empty, with `sep` between neighbours. -/
def joinNonempty (sep : Text) (ts : List Text) : Text :=
  join sep (ts.filter fun t => !t.isEmpty)

/-- The lines of a text, one after the other, with a line feed between them. -/
def unlines (ls : List Text) : Text := join ['\n'] ls

/-! ## Trimming -/

def trimLeft (p : Char → Bool) (t : Text) : Text := t.dropWhile p

def trimRight (p : Char → Bool) (t : Text) : Text :=
  (t.reverse.dropWhile p).reverse

/-- Drops the characters of a class at both ends. -/
def trimBy (p : Char → Bool) (t : Text) : Text := trimRight p (trimLeft p t)

/-- Space and tabulator. -/
def isBlank (c : Char) : Bool := c == ' ' || c == '\t'

/-- The blanks and the carriage return, which may end a line. -/
def isLineBlank (c : Char) : Bool := isBlank c || c == '\r'

/-- The blanks and both line end characters. -/
def isSpace (c : Char) : Bool := isLineBlank c || c == '\n'

/-- Drops blanks and line ends at both ends. -/
def trim (t : Text) : Text := trimBy isSpace t

/-- The first word of a trimmed text and the trimmed rest after the blank that
ends it. -/
def firstWord (t : Text) : Text × Text :=
  let s := trim t
  (s.takeWhile (fun c => !isBlank c),
    trim ((s.dropWhile (fun c => !isBlank c)).drop 1))

/-! ## Prefixes, splitting and case -/

/-- `t` without the leading `p`, if it starts with `p`. -/
def dropPrefix? : Text → Text → Option Text
  | [], t => some t
  | _ :: _, [] => none
  | a :: p, c :: t => if a = c then dropPrefix? p t else none

def startsWith (p t : Text) : Bool := (dropPrefix? p t).isSome

/-- `needle` occurs somewhere in the text. -/
def holds (needle : Text) : Text → Bool
  | [] => needle.isEmpty
  | c :: rest => startsWith needle (c :: rest) || holds needle rest

/-- The text up to the first NUL.  The system sees no more of a path, of an
argument or of what a thrown error says. -/
def untilNul (t : Text) : Text := t.takeWhile (· != '\x00')

/-- The pieces of a text between the occurrences of `sep`; always one more
than there are occurrences. -/
def splitAt (sep : Char) : Text → List Text
  | [] => [[]]
  | c :: rest =>
      if c = sep then [] :: splitAt sep rest
      else match splitAt sep rest with
        | [] => [[c]]
        | piece :: more => (c :: piece) :: more

/-- Every occurrence of `c` replaced by `by'`. -/
def replaceChar (c : Char) (by' : Text) (t : Text) : Text :=
  t.flatMap fun d => if d = c then by' else [d]

def lower (t : Text) : Text := t.map Char.toLower

/-! ## Order -/

/-- The order of texts is that of their bytes. -/
def le (a b : Text) : Bool := compare a b != .gt

/-- The texts of a list in ascending order, each once. -/
def sortedSet (ts : List Text) : List Text := (ts.mergeSort le).eraseReps

/-! ## Decimal numbers -/

def ofNat (n : Nat) : Text := Nat.toDigits 10 n

def ofInt : Int → Text
  | .ofNat n => ofNat n
  | .negSucc n => '-' :: ofNat (n + 1)

/-- The value of a run of decimal digits. -/
def digitsValue (t : Text) : Nat :=
  t.foldl (fun n c => n * 10 + (c.toNat - '0'.toNat)) 0

/-- Reads an optional sign followed by at least one digit and nothing else. -/
def toInt? (t : Text) : Option Int :=
  let unsigned (ds : Text) : Option Nat :=
    if !ds.isEmpty && ds.all Char.isDigit then some (digitsValue ds) else none
  match t with
  | '-' :: ds => (unsigned ds).map fun n => -(n : Int)
  | '+' :: ds => (unsigned ds).map fun n => (n : Int)
  | ds => (unsigned ds).map fun n => (n : Int)

end Text

end CrossDoc
