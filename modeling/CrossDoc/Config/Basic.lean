import CrossDoc.Platform

/-!
# Configuration

A configuration describes one run: where its output goes and, pass by pass,
what is analyzed for which platform.
-/

namespace CrossDoc

/-- A local directory and the address under which its files can be browsed. -/
structure SourceLink where
  path : Text := []
  url : Text := []
  /-- Written before the line number, such as `#L`. -/
  lineSuffix : Text := []
deriving DecidableEq, Repr, Inhabited

/-- What holds for the packages whose name starts with some segments. -/
structure PackageOptions where
  packagePrefix : Text := []
  includeNonPublic : Bool := false
  reportUndocumented : Bool := true
  skipDeprecated : Bool := false
  suppress : Bool := false
deriving DecidableEq, Repr, Inhabited

/-- Documentation of another project. -/
structure ExternalLink where
  url : Text := []
  /-- Empty for the usual place below the address. -/
  packageListUrl : Text := []
deriving DecidableEq, Repr, Inhabited

/-- The address of the list of packages. -/
def ExternalLink.packageList (l : ExternalLink) : Text :=
  if !l.packageListUrl.isEmpty then l.packageListUrl
  else if l.url.getLast? == some '/' then l.url ++ "package-list"
  else l.url ++ "/package-list"

/-- One analysis of one module for one platform. -/
structure Pass where
  moduleName : Text := []
  sourceRoots : List Text := []
  classpath : List Text := []
  samples : List Text := []
  includes : List Text := []
  sourceLinks : List SourceLink := []
  /-- A signed number of 32 bits. -/
  jdkVersion : Int := 6
  skipDeprecated : Bool := false
  skipEmptyPackages : Bool := true
  reportUndocumented : Bool := true
  includeNonPublic : Bool := false
  includeRootPackage : Bool := false
  packageOptions : List PackageOptions := []
  externalLinks : List ExternalLink := []
  noStdlibLink : Bool := false
  noJdkLink : Bool := false
  languageVersion : Text := []
  apiVersion : Text := []
  suppressedFiles : List Text := []
  sinceVersion : Text := "1.0"
  family : Family := .jvm
  targets : List Text := []
deriving DecidableEq, Repr, Inhabited

/-- One run. -/
structure Config where
  outputDir : Text := "docs"
  format : Text := "markdown"
  cacheRoot : Option Text := none
  impliedPlatforms : List Text := []
  generateIndexPages : Bool := false
  skip : Bool := false
  failOnError : Bool := false
  passes : List Pass := []
  disabledPlugins : List Text := []
deriving DecidableEq, Repr, Inhabited

namespace PackageOptions

/-- The prefix covers whole segments of the package name: all of it, or up to
a dot.  The empty prefix covers every name. -/
def covers (o : PackageOptions) (package : Text) : Bool :=
  match Text.dropPrefix? o.packagePrefix package with
  | none => false
  | some rest => rest.isEmpty || o.packagePrefix.isEmpty || rest.head? == some '.'

/-- The entry with the longest prefix, the first of them. -/
def longest (best : Option PackageOptions) : List PackageOptions → Option PackageOptions
  | [] => best
  | o :: rest =>
      match best with
      | none => longest (some o) rest
      | some b =>
          longest (some (if b.packagePrefix.length < o.packagePrefix.length then o else b)) rest

end PackageOptions

namespace Pass

/-- The identity of the pass.  Its targets form a set. -/
def platform (p : Pass) : Platform := ⟨p.moduleName, p.family, Text.sortedSet p.targets⟩

/-- What holds for all packages without options of their own. -/
def defaultOptions (p : Pass) : PackageOptions where
  packagePrefix := []
  includeNonPublic := p.includeNonPublic
  reportUndocumented := p.reportUndocumented
  skipDeprecated := p.skipDeprecated
  suppress := false

/-- The options of a package: those with the longest prefix that covers its
name, else those of the pass. -/
def optionsFor (p : Pass) (package : Text) : PackageOptions :=
  (PackageOptions.longest none (p.packageOptions.filter (·.covers package))).getD
    p.defaultOptions

end Pass

def Config.isDisabled (c : Config) (plugin : Text) : Bool := c.disabledPlugins.contains plugin

end CrossDoc
