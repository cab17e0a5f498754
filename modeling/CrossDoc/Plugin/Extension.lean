import CrossDoc.Page.Tree
import CrossDoc.Plugin.Registry
import CrossDoc.Run.Context

/-!
# Extension points

The places at which plugins take part in a run.  An implementation for one of
them is a function that answers or fails, and reports what it does.  Only a
renderer changes the disk.  Plugins are free to have points and interfaces of
their own besides these, and to mix them up.
-/

namespace CrossDoc

/-- The extension points of a run. -/
inductive Point where
  | symbolTranslator
  | fileTranslator
  | merger
  | moduleTransformer
  | pageCreator
  | pageTransformer
  | renderer
deriving DecidableEq, Repr, Inhabited

namespace Point

def name : Point → Text
  | .symbolTranslator => "symbol_translator"
  | .fileTranslator => "file_translator"
  | .merger => "documentable_merger"
  | .moduleTransformer => "documentable_transformer"
  | .pageCreator => "page_creator"
  | .pageTransformer => "page_transformer"
  | .renderer => "renderer"

theorem name_inj {p q : Point} (h : p.name = q.name) : p = q := by
  cases p <;> cases q <;> first | rfl | exact absurd h (by decide)

/-- Transformers form chains; everything else is there once. -/
def cardinality : Point → Cardinality
  | .moduleTransformer | .pageTransformer => .multi
  | .symbolTranslator | .fileTranslator | .merger | .pageCreator | .renderer => .single

def all : List Point :=
  [.symbolTranslator, .fileTranslator, .merger, .moduleTransformer, .pageCreator,
    .pageTransformer, .renderer]

/-- The single points, in the order in which a run checks them. -/
def singles : List Point := [.symbolTranslator, .fileTranslator, .merger, .pageCreator, .renderer]

/-- Calls an extension of the point; `answers` tells whether its answer is no
failure. -/
def call {α : Type} (p : Point) (answers : α → Bool) (answer : Traced α) : Traced α := do
  Traced.emit (.call p.name (answers answer.value))
  answer.relay

theorem value_call {α : Type} (p : Point) (answers : α → Bool) (answer : Traced α) :
    (p.call answers answer).value = answer.value := rfl

end Point

/-- What the implementations of a point are: a function that is called in a run. -/
@[reducible]
def Point.Interface : Point → Type
  -- The module of one pass: from its symbol groups, or from its source files.
  | .symbolTranslator | .fileTranslator =>
      AnalyzedPass → RunContext → Traced (Except Fault DocModule)
  | .merger => List DocModule → RunContext → Traced (Except Fault DocModule)
  | .moduleTransformer => DocModule → RunContext → Traced (Except Fault DocModule)
  | .pageCreator => DocModule → RunContext → Traced (Except Fault PageTree)
  | .pageTransformer => PageTree → RunContext → Traced (Except Fault PageTree)
  | .renderer => PageTree → RunContext → Disk → Traced (Except Fault Unit × Disk)

/-- The type that the implementations of a point have. -/
def Point.type : Point → Text
  | .symbolTranslator => "SymbolTranslator"
  | .fileTranslator => "FileTranslator"
  | .merger => "DocumentableMerger"
  | .moduleTransformer => "DocumentableTransformer"
  | .pageCreator => "PageCreator"
  | .pageTransformer => "PageTransformer"
  | .renderer => "Renderer"

theorem Point.type_inj {p q : Point} (h : p.type = q.type) : p = q := by
  cases p <;> cases q <;> first | rfl | exact absurd h (by decide)

/-- An implementation, whatever point it is registered for. -/
inductive Extension where
  /-- It has the interface of a point of a run. -/
  | of (p : Point) (run : p.Interface)
  /-- It has an interface of its own, so no stage of a run can call it. -/
  | foreign (type : Text) (own : ∀ p : Point, p.type ≠ type)

namespace Extension

/-- The type of an implementation. -/
def type : Extension → Text
  | .of p _ => p.type
  | .foreign type _ => type

/-- An implementation as one of the interface of a point. -/
def cast (p : Point) : Extension → Except Fault p.Interface
  | .of q run => if h : q = p then .ok (h ▸ run) else .error badCast
  | .foreign _ _ => .error badCast

theorem cast_of (p : Point) (run : p.Interface) : (of p run).cast p = .ok run := dif_pos rfl

/-- An implementation of the type of a point has its interface. -/
theorem exists_of_type {e : Extension} {p : Point} (h : e.type = p.type) :
    ∃ run, e = .of p run := by
  cases e with
  | of q run =>
      obtain rfl := Point.type_inj h
      exact ⟨run, rfl⟩
  | foreign type own => exact absurd h.symm (own p)

end Extension

end CrossDoc
