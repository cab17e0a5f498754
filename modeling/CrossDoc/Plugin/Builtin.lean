import CrossDoc.Model.Merging
import CrossDoc.Model.Assembly
import CrossDoc.Page.Creation
import CrossDoc.Page.Directory
import CrossDoc.Plugin.Plugin
import CrossDoc.Refinement.Chain
import CrossDoc.Render.Output

/-!
# The plugins of every run

`core` translates, merges and creates pages, `base` adds the transforms of
modules and page trees, and `markdown` writes Markdown if the configuration
asks for it.
-/

namespace CrossDoc.Plugin

/-! ## Core -/

def mergeModules (ms : List DocModule) (_ : RunContext) : Traced (Except Fault DocModule) := do
  match ← DocModule.merge ms with
  | .ok m => return .ok m
  | .error f => return .error (.failed f)

def createPages (m : DocModule) (_ : RunContext) : Traced (Except Fault PageTree) := do
  return .ok (← PageTree.create m)

def core : Plugin where
  name := "core"
  install _ := pure (.ok [
    Point.symbolTranslator.propose "listing_symbols" Assembly.ofGroups,
    Point.fileTranslator.propose "listing_files" Assembly.ofFiles,
    Point.merger.propose "merger" mergeModules,
    Point.pageCreator.propose "page_creator" createPages])

/-! ## Base -/

def moduleProposal (t : BaseTransform) : Proposal :=
  Point.moduleTransformer.propose t.name t.apply

def applyPageTransform (p : PageTransform) (t : PageTree) (_ : RunContext) :
    Traced (Except Fault PageTree) := do
  return .ok (← p.apply t)

def pageProposal (p : PageTransform) : Proposal :=
  Point.pageTransformer.propose p.name (applyPageTransform p)

/-- The page transforms of a configuration, in the order in which they are
applied. -/
def pageTransforms (c : Config) : List PageTransform :=
  if c.generateIndexPages then [.navigation, .indexPages, .searchIndex]
  else [.navigation, .searchIndex]

def base : Plugin where
  name := "base"
  after := ["core"]
  install c := pure (.ok
    (BaseTransform.all.map moduleProposal ++ (pageTransforms c).map pageProposal))

/-! ## Markdown -/

/-- Writes the page tree below the output directory. -/
def renderMarkdown (t : PageTree) (c : RunContext) (disk : Disk) :
    Traced (Except Fault Unit × Disk) := do
  match ← (Disk.writer c.config.outputDir).writeTree t disk with
  | (.ok count, disk) =>
      Traced.notice .info
        ("Rendered " ++ Text.ofNat count ++ " file(s) to " ++ c.config.outputDir)
      return (.ok (), disk)
  | (.error message, disk) => return (.error (.failed (.ofStage [] message)), disk)

/-- The format names that stand for Markdown, in any case. -/
def isMarkdown (format : Text) : Bool :=
  Text.lower format == ("markdown" : Text) || Text.lower format == ("md" : Text)

def markdown : Plugin where
  name := "markdown"
  after := ["base"]
  install c := do
    if isMarkdown c.format then
      return .ok [Point.renderer.propose "renderer" renderMarkdown]
    else
      Traced.log .debug "plugin"
        ("format '" ++ c.format ++ "' is not handled by the markdown renderer")
      return .ok []

/-- The plugins every run starts with. -/
def builtin : List Plugin := [core, base, markdown]

end CrossDoc.Plugin
