import CrossDoc.Decl.Id
import CrossDoc.Platform

/-!
# Page content

What stands on a page, independent of an output format: a tree of headings,
text, code, tables, links and groups.  A part may be tagged with the platforms
it applies to; where platforms differ, a `hinted` node holds one variant for
each way they do.
-/

namespace CrossDoc

inductive ContentKind where
  | group
  | header
  | text
  | code
  /-- The children are rows. -/
  | table
  /-- The children are cells. -/
  | row
  /-- A link to a declaration or to an address. -/
  | link
  /-- The children are variants, each tagged with its platforms. -/
  | hinted
  /-- A separating line. -/
  | separator
deriving DecidableEq, Repr, Inhabited

def ContentKind.name : ContentKind → Text
  | .group => "group"
  | .header => "header"
  | .text => "text"
  | .code => "code"
  | .table => "table"
  | .row => "row"
  | .link => "link"
  | .hinted => "platform_hinted"
  | .separator => "break"

/-- A part of a page. -/
structure Content where
  kind : ContentKind := .group
  text : Text := []
  /-- The level of a header, documented as one to six; other parts have level zero.
  It is never negative: a renderer could not write that many marks. -/
  level : Nat := 0
  /-- The declaration a link leads to. -/
  target : Option DeclId := none
  url : Text := []
  /-- A free hint, such as `list` or `header`. -/
  style : Text := []
  /-- The platforms the part applies to. -/
  platforms : List Platform := []
  children : List Content := []
deriving Repr, Inhabited

namespace Content

/-! ## Equality -/

mutual

/-- Two parts are equal in every field. -/
def same : Content → Content → Bool
  | ⟨kind, text, level, target, url, style, platforms, children⟩,
    ⟨kind', text', level', target', url', style', platforms', children'⟩ =>
      kind == kind' && text == text' && level == level' && target == target' &&
        url == url' && style == style' && platforms == platforms' &&
        sameAll children children'

def sameAll : List Content → List Content → Bool
  | [], [] => true
  | c :: rest, c' :: rest' => same c c' && sameAll rest rest'
  | [], _ :: _ => false
  | _ :: _, [] => false

end

mutual

theorem eq_of_same : ∀ {c d : Content}, same c d = true → c = d
  | ⟨_, _, _, _, _, _, _, _⟩, ⟨_, _, _, _, _, _, _, _⟩, h => by
      simp only [same, Bool.and_eq_true, beq_iff_eq] at h
      obtain ⟨⟨⟨⟨⟨⟨⟨rfl, rfl⟩, rfl⟩, rfl⟩, rfl⟩, rfl⟩, rfl⟩, hc⟩ := h
      rw [eq_of_sameAll hc]

theorem eq_of_sameAll : ∀ {cs ds : List Content}, sameAll cs ds = true → cs = ds
  | [], [], _ => rfl
  | _ :: _, _ :: _, h => by
      simp only [sameAll, Bool.and_eq_true] at h
      rw [eq_of_same h.1, eq_of_sameAll h.2]
  | [], _ :: _, h => by simp [sameAll] at h
  | _ :: _, [], h => by simp [sameAll] at h

end

mutual

theorem same_self : ∀ c : Content, same c c = true
  | ⟨_, _, _, _, _, _, _, children⟩ => by simp [same, sameAll_self children]

theorem sameAll_self : ∀ cs : List Content, sameAll cs cs = true
  | [] => rfl
  | c :: rest => by simp [sameAll, same_self c, sameAll_self rest]

end

instance : DecidableEq Content := fun c d =>
  if h : same c d = true then isTrue (eq_of_same h)
  else isFalse fun e => h (e ▸ same_self c)

/-! ## Parts -/

def group (children : List Content) (style : Text) : Content :=
  { kind := .group, children := children, style := style }

/-- A heading; levels go from one to six, and any other number is moved there. -/
def header (level : Int) (text : Text) : Content :=
  { kind := .header, level := (max 1 (min level 6)).toNat, text := text }

def paragraph (text : Text) : Content := { kind := .text, text := text }

def code (text : Text) : Content := { kind := .code, text := text }

def linkTo (text : Text) (target : DeclId) : Content :=
  { kind := .link, text := text, target := some target }

def urlLink (text url : Text) : Content := { kind := .link, text := text, url := url }

def separator : Content := { kind := .separator }

/-- The part with other platforms. -/
def tagged (c : Content) (platforms : List Platform) : Content :=
  { c with platforms := platforms }

/-- A row of cells that applies to some platforms. -/
def row (cells : List Content) (platforms : List Platform) : Content :=
  { kind := .row, children := cells, platforms := platforms }

/-- The row of column titles. -/
def headerRow (columns : List Text) : Content :=
  { kind := .row, style := "header", children := columns.map paragraph }

/-- A table with column titles. -/
def table (columns : List Text) (rows : List Content) : Content :=
  { kind := .table, children := headerRow columns :: rows }

mutual

/-- The text of a part and all below it, separated by spaces. -/
def plainText : Content → Text
  | ⟨_, text, _, _, _, _, _, children⟩ =>
      Text.joinNonempty " " (text :: plainTexts children)

def plainTexts : List Content → List Text
  | [] => []
  | c :: rest => c.plainText :: plainTexts rest

end

end Content

end CrossDoc
