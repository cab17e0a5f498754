import CrossDoc.Config.Basic
import CrossDoc.Config.Value

/-!
# Reading configurations

A configuration text holds tables of entries `key = value`.  A `[docgen]`
table sets what concerns the whole run.  Each `[[pass]]` table adds a pass,
and the tables that may follow it add package options, source links and
external links to that pass.  An entry belongs to the table opened last.

Keys that a table does not know are left out and remembered with their line.
-/

namespace CrossDoc

/-- The table that entries belong to. -/
inductive ConfigTable where
  | outside
  | docgen
  | pass
  | package
  | sourceLink
  | externalLink
deriving DecidableEq, Repr, Inhabited

/-- A configuration while it is read. -/
structure ConfigDraft where
  config : Config := {}
  table : ConfigTable := .outside
  /-- Unknown keys and the lines on which their entries end. -/
  ignored : List (Nat × Text) := []
deriving DecidableEq, Repr, Inhabited

/-- Changes the last element of a list. -/
def modifyLast {α : Type} (f : α → α) : List α → List α
  | [] => []
  | [a] => [f a]
  | a :: b :: rest => a :: modifyLast f (b :: rest)

/-! ## Entries

The functions `set?` store a value under a key; they answer `none` if they do
not know the key. -/

def PackageOptions.set? (o : PackageOptions) (key : Text) (v : ConfigValue) :
    Except ConfigProblem (Option PackageOptions) := do
  if key = "prefix" then return some { o with packagePrefix := ← v.asText key }
  else if key = "include_non_public" then
    return some { o with includeNonPublic := ← v.asBoolean key }
  else if key = "report_undocumented" then
    return some { o with reportUndocumented := ← v.asBoolean key }
  else if key = "skip_deprecated" then
    return some { o with skipDeprecated := ← v.asBoolean key }
  else if key = "suppress" then return some { o with suppress := ← v.asBoolean key }
  else return none

def SourceLink.set? (l : SourceLink) (key : Text) (v : ConfigValue) :
    Except ConfigProblem (Option SourceLink) := do
  if key = "path" then return some { l with path := ← v.asText key }
  else if key = "url" then return some { l with url := ← v.asText key }
  else if key = "line_suffix" then return some { l with lineSuffix := ← v.asText key }
  else return none

def ExternalLink.set? (l : ExternalLink) (key : Text) (v : ConfigValue) :
    Except ConfigProblem (Option ExternalLink) := do
  if key = "url" then return some { l with url := ← v.asText key }
  else if key = "package_list" ∨ key = "package_list_url" then
    return some { l with packageListUrl := ← v.asText key }
  else return none

/-- The signed number of 32 bits with the same low bits. -/
def narrow (n : Int) : Int := Int.bmod n UInt32.size

def Pass.set? (p : Pass) (key : Text) (v : ConfigValue) :
    Except ConfigProblem (Option Pass) := do
  if key = "module" ∨ key = "module_name" then
    return some { p with moduleName := ← v.asText key }
  else if key = "platform" ∨ key = "analysis_platform" then
    return some { p with family := ← v.asFamily key }
  else if key = "targets" then return some { p with targets := ← v.asList key }
  else if key = "source_roots" then return some { p with sourceRoots := ← v.asList key }
  else if key = "classpath" then return some { p with classpath := ← v.asList key }
  else if key = "samples" then return some { p with samples := ← v.asList key }
  else if key = "includes" then return some { p with includes := ← v.asList key }
  else if key = "suppressed_files" then
    return some { p with suppressedFiles := ← v.asList key }
  else if key = "jdk_version" then
    return some { p with jdkVersion := narrow (← v.asInteger key) }
  else if key = "skip_deprecated" then
    return some { p with skipDeprecated := ← v.asBoolean key }
  else if key = "skip_empty_packages" then
    return some { p with skipEmptyPackages := ← v.asBoolean key }
  else if key = "report_undocumented" then
    return some { p with reportUndocumented := ← v.asBoolean key }
  else if key = "include_non_public" then
    return some { p with includeNonPublic := ← v.asBoolean key }
  else if key = "include_root_package" then
    return some { p with includeRootPackage := ← v.asBoolean key }
  else if key = "no_stdlib_link" then
    return some { p with noStdlibLink := ← v.asBoolean key }
  else if key = "no_jdk_link" then return some { p with noJdkLink := ← v.asBoolean key }
  else if key = "language_version" then
    return some { p with languageVersion := ← v.asText key }
  else if key = "api_version" then return some { p with apiVersion := ← v.asText key }
  else if key = "since_version" then
    return some { p with sinceVersion := ← v.asText key }
  else return none

/-- Stores a value that concerns the whole run. -/
def Config.set? (c : Config) (key : Text) (v : ConfigValue) :
    Except ConfigProblem (Option Config) := do
  if key = "output_dir" ∨ key = "output" then
    return some { c with outputDir := ← v.asText key }
  else if key = "format" then return some { c with format := ← v.asText key }
  else if key = "cache_root" then return some { c with cacheRoot := some (← v.asText key) }
  else if key = "implied_platforms" then
    return some { c with impliedPlatforms := ← v.asList key }
  else if key = "generate_index_pages" then
    return some { c with generateIndexPages := ← v.asBoolean key }
  else if key = "skip" then return some { c with skip := ← v.asBoolean key }
  else if key = "fail_on_error" then
    return some { c with failOnError := ← v.asBoolean key }
  else if key = "disabled_plugins" then
    return some { c with disabledPlugins := ← v.asList key }
  else return none

/-- Stores a value in the last element of a list. -/
def setLast? {α : Type} (set? : α → Except ConfigProblem (Option α)) :
    List α → Except ConfigProblem (Option (List α))
  | [] => .ok none
  | [a] => do return (← set? a).map fun b => [b]
  | a :: b :: rest => do return (← setLast? set? (b :: rest)).map fun more => a :: more

namespace ConfigDraft

/-- The configuration after an entry of the open table. -/
def entry? (d : ConfigDraft) (key : Text) (v : ConfigValue) :
    Except ConfigProblem (Option Config) := do
  let inLastPass (set? : Pass → Except ConfigProblem (Option Pass)) := do
    return (← setLast? set? d.config.passes).map fun ps => { d.config with passes := ps }
  match d.table with
  | .outside => .error (.outsideTable key)
  | .docgen => d.config.set? key v
  | .pass => inLastPass fun p => p.set? key v
  | .package => inLastPass fun p => do
      return (← setLast? (·.set? key v) p.packageOptions).map fun os =>
        { p with packageOptions := os }
  | .sourceLink => inLastPass fun p => do
      return (← setLast? (·.set? key v) p.sourceLinks).map fun ls =>
        { p with sourceLinks := ls }
  | .externalLink => inLastPass fun p => do
      return (← setLast? (·.set? key v) p.externalLinks).map fun ls =>
        { p with externalLinks := ls }

/-- Stores an entry, or remembers that its key is unknown. -/
def addEntry (d : ConfigDraft) (key : Text) (v : ConfigValue) (line : Nat) :
    Except ConfigProblem ConfigDraft := do
  match ← d.entry? key v with
  | some config => return { d with config := config }
  | none => return { d with ignored := d.ignored ++ [(line, key)] }

/-! ## Tables -/

def modifyLastPass (d : ConfigDraft) (f : Pass → Pass) : ConfigDraft :=
  { d with config := { d.config with passes := modifyLast f d.config.passes } }

/-- Opens a table that belongs to the last pass. -/
def openPart (d : ConfigDraft) (name : Text) (table : ConfigTable) (add : Pass → Pass) :
    Except ConfigProblem ConfigDraft :=
  if d.config.passes.isEmpty then .error (.orphanTable name)
  else .ok { d.modifyLastPass add with table := table }

/-- Opens the table of a header; `isArray` tells double from single
brackets. -/
def openTable (d : ConfigDraft) (isArray : Bool) (name : Text) :
    Except ConfigProblem ConfigDraft :=
  if !isArray then
    if name = "docgen" then .ok { d with table := .docgen }
    else .error (.unknownTable name)
  else if name = "pass" then
    .ok { d with
      config := { d.config with passes := d.config.passes ++ [{}] }
      table := .pass }
  else if name = "pass.package" then
    d.openPart name .package fun p => { p with packageOptions := p.packageOptions ++ [{}] }
  else if name = "pass.source_link" then
    d.openPart name .sourceLink fun p => { p with sourceLinks := p.sourceLinks ++ [{}] }
  else if name = "pass.external_link" then
    d.openPart name .externalLink fun p => { p with externalLinks := p.externalLinks ++ [{}] }
  else .error (.unknownTable name)

/-! ## The text -/

/-- Reads a table header; the cursor stands at its first bracket. -/
def readHeader (d : ConfigDraft) (c : Cursor) : Except ConfigError (ConfigDraft × Cursor) := do
  let c := c.advance
  let isArray := c.peek == '['
  let c := if isArray then c.advance else c
  let isNameChar (x : Char) := x != ']' && x != '\n'
  let name := c.rest.takeWhile isNameChar
  let c := c.skip isNameChar
  if c.peek ≠ ']' then c.fail .unterminatedHeader
  else
    let c := c.advance
    if isArray && c.peek != ']' then c.fail .unclosedArrayHeader
    else
      let c := if isArray then c.advance else c
      match d.openTable isArray (Text.trimBy Text.isBlank name) with
      | .error problem => c.fail problem
      | .ok d => return (d, ← c.lineEnd)

def isKeyChar (c : Char) : Bool := c.isAlphanum || c == '_' || c == '-'

/-- Reads an entry.  An entry that cannot be stored is at fault on the line on
which it starts. -/
def readEntry (d : ConfigDraft) (c : Cursor) : Except ConfigError (ConfigDraft × Cursor) := do
  let start := c.line
  let key := c.rest.takeWhile isKeyChar
  let c := c.skip isKeyChar
  if key.isEmpty then c.fail .missingKey
  else
    let c := c.skipBlanks
    if c.peek ≠ '=' then c.fail (.missingEquals key)
    else
      let (v, c) ← ConfigValue.read c.advance.skipBlanks
      let c ← c.lineEnd
      match d.addEntry key v c.line with
      | .error problem => .error ⟨problem, start⟩
      | .ok d => return (d, c)

/-- Reads the header or entry at the cursor. -/
def step (d : ConfigDraft) (c : Cursor) : Except ConfigError (ConfigDraft × Cursor) :=
  if c.peek = '[' then d.readHeader c else d.readEntry c

/-- Reads at most `fuel` headers and entries.  The draft is that before the
error, if there is one. -/
def readAll : Nat → ConfigDraft → Cursor → ConfigDraft × Option ConfigError
  | 0, d, _ => (d, none)
  | fuel + 1, d, c =>
      let c := c.skipSpace
      if c.atEnd then (d, none)
      else match d.step c with
        | .error e => (d, some e)
        | .ok (d, c) => readAll fuel d c

/-- Reads a whole text.  Every header and entry has at least one character, so
the fuel suffices. -/
def ofText (t : Text) : ConfigDraft × Option ConfigError :=
  readAll (t.length + 1) {} ⟨t, 1⟩

end ConfigDraft

/-- The configuration that a text describes. -/
def Config.parse (t : Text) : Except ConfigError Config :=
  match ConfigDraft.ofText t with
  | (d, none) => .ok d.config
  | (_, some e) => .error e

/-- The keys that reading a text passes over, up to its end or first error. -/
def Config.ignoredKeys (t : Text) : List (Nat × Text) := (ConfigDraft.ofText t).1.ignored

end CrossDoc
