import CrossDoc.Text

/-!
# Paths

Slash separated path texts.  A path has *elements*: the root directory if it
starts with a slash, its names, and an empty last element if it ends with a
slash.  `relative` finds the way from one directory to another path by their
elements alone.
-/

namespace CrossDoc.Path

def slash : Char := '/'

def isAbsolute (p : Text) : Bool := p.head? == some slash

/-- The names between the slashes, empty pieces left out. -/
def names (p : Text) : List Text :=
  (Text.splitAt slash p).filter fun n => !n.isEmpty

def endsWithSlash (p : Text) : Bool := p.getLast? == some slash

/-- The elements of a path. -/
def elements (p : Text) : List Text :=
  let ns := names p
  (if isAbsolute p then [[slash]] else []) ++ ns ++
    (if endsWithSlash p && !ns.isEmpty then [[]] else [])

/-- The path with single slashes: its elements with a slash after each name
that another element follows. -/
def collapsed (p : Text) : Text :=
  match elements p with
  | ['/'] :: rest => slash :: Text.join [slash] rest
  | es => Text.join [slash] es

/-- A path below a directory; an absolute path stands for itself. -/
def append (dir p : Text) : Text :=
  if isAbsolute p then p
  else if dir.isEmpty || endsWithSlash dir then dir ++ p
  else dir ++ slash :: p

/-- Without slashes at the end, except that a path of slashes alone keeps
one. -/
def dropEndSlashes (p : Text) : Text :=
  let q := Text.trimRight (· == slash) p
  if q.isEmpty && isAbsolute p then [slash] else q

/-- The path without its last element.  The root directory is its own
parent. -/
def parent (p : Text) : Text :=
  if (names p).isEmpty then p
  else dropEndSlashes (Text.trimRight (· != slash) p)

/-- The last element. -/
def fileName (p : Text) : Text := (elements p).getLast?.getD []

/-- The part of the file name from its last dot, unless the dot comes first. -/
def extension (p : Text) : Text :=
  let name := fileName p
  let tail := (name.reverse.takeWhile (· != '.')).reverse
  let stem := name.take (name.length - tail.length - 1)
  if name.contains '.' && !stem.isEmpty && name != ['.', '.'] then '.' :: tail
  else []

/-! ## The way between two paths -/

def dot : Text := ['.']

def dotDot : Text := ['.', '.']

/-- Drops the common first elements of two paths. -/
def dropCommon : List Text → List Text → List Text × List Text
  | a :: as, b :: bs => if a = b then dropCommon as bs else (a :: as, b :: bs)
  | as, bs => (as, bs)

/-- How many directories a run of elements leads down, less those it leads
up. -/
def depth (es : List Text) : Int :=
  es.foldl (fun n e =>
    if e = dotDot then n - 1
    else if e = [] ∨ e = dot then n
    else n + 1) 0

/-- The elements that lead from the directory `base` to `target`; none if
one of them is absolute and the other is not, or if `base` leads out of what
they have in common. -/
def relativeElements? (target base : Text) : Option (List Text) :=
  if isAbsolute target != isAbsolute base then none
  else
    let (ahead, back) := dropCommon (elements target) (elements base)
    let n := depth back
    if n = 0 ∧ (ahead.head?.getD []) = [] then some [dot]
    else if n < 0 then none
    else some (List.replicate n.toNat dotDot ++ ahead)

/-- The way from the directory `base` to `target`. -/
def relative? (target base : Text) : Option Text :=
  (relativeElements? target base).map (Text.join [slash])

/-! ## Order -/

/-- Paths are ordered element by element. -/
def le (p q : Text) : Bool := compare (elements p) (elements q) != .gt

end CrossDoc.Path
