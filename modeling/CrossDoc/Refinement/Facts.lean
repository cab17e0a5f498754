import CrossDoc.Decl.Tree

/-!
# Filtering and rewriting facts

`filter` keeps a declaration on a platform when a test holds for it and it was
kept, on that platform, everywhere above.  A declaration without platforms
disappears with its members.  `mapFacts` changes the facts of every
declaration below the module.
-/

namespace CrossDoc

/-- Decides whether a declaration stays on a platform. -/
abbrev KeepTest := Declaration → Platform → Facts → Bool

/-- Changes the facts of a declaration on a platform. -/
abbrev FactsChange := Declaration → Platform → Facts → Facts

namespace Declaration

/-- The declaration goes from a platform that was removed above it, or on
which the test does not hold. -/
def dropsFrom (keep : KeepTest) (removed : List Platform) (d : Declaration) (p : Platform)
    (f : Facts) : Bool :=
  removed.contains p || !keep d p f

/-- The platforms from which a declaration goes. -/
def droppedPlatforms (keep : KeepTest) (removed : List Platform) (d : Declaration) :
    List Platform :=
  (d.facts.filter fun p f => d.dropsFrom keep removed p f).platforms

/-- The facts of the platforms on which a declaration stays. -/
def keptFacts (keep : KeepTest) (removed : List Platform) (d : Declaration) : FactsMap :=
  d.facts.filter fun p f => !d.dropsFrom keep removed p f

mutual

/-- What stays of a tree, where `removed` are the platforms that went
above. -/
def filter (keep : KeepTest) (removed : List Platform) : Declaration → Option Declaration
  | ⟨kind, name, id, parent, facts, children⟩ =>
      let d : Declaration := ⟨kind, name, id, parent, facts, children⟩
      let kept := d.keptFacts keep removed
      if kept.entries.isEmpty then none
      else
        some ⟨kind, name, id, parent, kept,
          filterAll keep (removed ++ d.droppedPlatforms keep removed) children⟩

def filterAll (keep : KeepTest) (removed : List Platform) : List Declaration → List Declaration
  | [] => []
  | d :: rest =>
      match d.filter keep removed with
      | some kept => kept :: filterAll keep removed rest
      | none => filterAll keep removed rest

end

mutual

/-- Changes the facts of a tree. -/
def mapFacts (f : FactsChange) : Declaration → Declaration
  | ⟨kind, name, id, parent, facts, children⟩ =>
      ⟨kind, name, id, parent,
        facts.map (f ⟨kind, name, id, parent, facts, children⟩), mapFactsAll f children⟩

def mapFactsAll (f : FactsChange) : List Declaration → List Declaration
  | [] => []
  | d :: rest => d.mapFacts f :: mapFactsAll f rest

end

end Declaration

namespace DocModule

/-- Keeps the declarations that satisfy a test. -/
def filter (keep : KeepTest) (m : DocModule) : DocModule :=
  { m with packages := Declaration.filterAll keep [] m.packages }

/-- Changes the facts of all declarations. -/
def mapFacts (f : FactsChange) (m : DocModule) : DocModule :=
  { m with packages := Declaration.mapFactsAll f m.packages }

end DocModule

end CrossDoc
